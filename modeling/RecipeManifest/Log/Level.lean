import RecipeManifest.Log.Fault

/-!
Levels of log entries.
-/

namespace RecipeManifest

/-- How much a message matters. Below `debug` is the level of a log that leaves nothing out. -/
inductive Level where
  | unset | debug | info | warning | error | critical
  deriving DecidableEq, Repr

namespace Level

def name : Level → String
  | unset => "NOTSET"
  | debug => "DEBUG"
  | info => "INFO"
  | warning => "WARNING"
  | error => "ERROR"
  | critical => "CRITICAL"

def weight : Level → Nat
  | unset => 0
  | debug => 10
  | info => 20
  | warning => 30
  | error => 40
  | critical => 50

/-- The letter in upper case, as far as it can be part of a level's name. -/
def upper (c : Char) : List Char :=
  match c with
  | 'ı' => ['I']
  | 'ſ' => ['S']
  | 'ﬅ' | 'ﬆ' => ['S', 'T']
  | c => [c.toUpper]

/-- What the name of the default line pattern stands for. -/
def basicPattern : String :=
  "%(levelname)s:%(name)s:%(message)s"

/-- What the name of the table of pattern styles stands for. -/
def patternStyles : String :=
  "\x7b'%': (<class 'logging.PercentStyle'>, '%(levelname)s:%(name)s:%(message)s'), " ++
    "'\x7b': (<class 'logging.StrFormatStyle'>, " ++
    "'\x7blevelname\x7d:\x7bname\x7d:\x7bmessage\x7d'), " ++
    "'$': (<class 'logging.StringTemplateStyle'>, " ++
    "'$\x7blevelname\x7d:$\x7bname\x7d:$\x7bmessage\x7d')\x7d"

/-- The level of that name, in letters of either case. An unknown name means `info`, but two names
are taken by something that is no level. -/
def ofName (name : String) : Except LogFault Level :=
  match String.ofList (name.toList.flatMap upper) with
  | "NOTSET" => .ok unset
  | "DEBUG" => .ok debug
  | "WARNING" | "WARN" => .ok warning
  | "ERROR" => .ok error
  | "CRITICAL" | "FATAL" => .ok critical
  | "BASIC_FORMAT" => .error (.unknownLevel basicPattern)
  | "_STYLES" => .error (.badLevel patternStyles)
  | _ => .ok info

end Level

end RecipeManifest
