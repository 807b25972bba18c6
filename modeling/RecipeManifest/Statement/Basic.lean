/-!
Statements of a recipe and the expressions in them.

A resource declaration has a type, a name and maybe a block; the statements in the block are its
properties. Code that is no such declaration is kept as text.
-/

namespace RecipeManifest

inductive LiteralKind where
  | string | symbol | number | bool | nil | regex | code
  deriving DecidableEq, Repr

mutual

inductive Expr where
  /-- No value, where one could stand. -/
  | absent
  | literal (kind : LiteralKind) (value : String)
  /-- A string with code in it. -/
  | interpolated (parts : List Piece)
  /-- A lookup of a node attribute by its keys, outermost first. -/
  | nodeRef (path : List String)
  /-- A test of what a path is, by the flag that the shell's test command has for it. -/
  | fileTest (flag : String) (path : Expr)
  | not (operand : Expr)
  | binary (op : String) (left right : Expr)
  | array (items : List Expr)
  | hash (pairs : List (Expr × Expr))
  /-- A reference to declared resources by type and name. -/
  | resources (targets : List (String × String))
  | call (receiver : Option Expr) (name : String) (args : List Expr)
  /-- A statement that stands for a value, which it does not have. -/
  | statement (node : Statement)
  /-- A block that stands for a value. -/
  | block (body : List Statement)

/-- A stretch of an interpolated string. -/
inductive Piece where
  | text (chars : String)
  | value (expr : Expr)

inductive Statement where
  | resource (type : String) (name : Option Expr) (body : List Statement) (hasBlock : Bool)
      (line : Int)
  | property (name : String) (args : List Expr) (block : Option (List Statement)) (line : Int)
  | expression (expr : Expr) (line : Int)
  /-- Code outside the grammar of declarations. -/
  | unsupported (source : String) (line : Int)

end

instance : Inhabited Expr := ⟨.absent⟩

instance : Inhabited Statement := ⟨.unsupported "" 0⟩

/-- A declaration of a resource. -/
structure Resource where
  type : String
  name : Option Expr
  body : List Statement
  hasBlock : Bool
  line : Int

/-- A property set in a declaration's block. -/
structure Property where
  name : String
  args : List Expr
  block : Option (List Statement)
  line : Int

namespace Statement

def line : Statement → Int
  | resource _ _ _ _ line | property _ _ _ line | expression _ line | unsupported _ line => line

def property? : Statement → Option Property
  | property name args block line => some ⟨name, args, block, line⟩
  | _ => none

/-- The value that a statement gives to the block it ends. -/
def value? : Statement → Option Expr
  | expression expr _ => some expr
  | property name args _ _ => some (.call none name args)
  | _ => none

end Statement

/-- The value of a block is that of the last statement that has one. -/
def blockValue (body : List Statement) : Option Expr :=
  body.reverse.findSome? Statement.value?

namespace Resource

def properties (r : Resource) : List Property :=
  r.body.filterMap Statement.property?

/-- The first property of that name. -/
def find? (r : Resource) (name : String) : Option Property :=
  r.properties.find? fun p => p.name == name

end Resource

/-- A node attribute as a variable put into text. -/
def nodeVariable (path : List String) : String :=
  "$\x7b" ++ "_".intercalate path ++ "\x7d"

namespace Expr

mutual

/-- The text of an expression that names the type or the name of a resource. -/
def namingText : Expr → String
  | literal _ value => value
  | interpolated parts => namingTextOf parts
  | nodeRef path => nodeVariable path
  | call _ name _ => name
  | _ => ""

def namingTextOf : List Piece → String
  | [] => ""
  | .text chars :: rest => chars ++ namingTextOf rest
  | .value expr :: rest => namingText expr ++ namingTextOf rest

end

end Expr

end RecipeManifest
