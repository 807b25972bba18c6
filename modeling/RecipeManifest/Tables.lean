/-!
What resource types and actions of recipes are called in manifests. A name that a table does not
hold stays as it is.
-/

namespace RecipeManifest

structure Tables where
  resourceTypes : List (String × String) := [
    ("cookbook_file", "file"), ("cron", "cron"), ("deploy", "deploy"), ("directory", "directory"),
    ("erlang_call", "erlang_call"), ("execute", "exec"), ("file", "file"),
    ("gem_package", "package"), ("git", "git"), ("group", "group"),
    ("http_request", "http_request"), ("ifconfig", "ifconfig"), ("link", "file"), ("log", "log"),
    ("mdadm", "mdadm"), ("mount", "mount"), ("package", "package"),
    ("remote_directory", "remote_directory"), ("remote_file", "file"), ("route", "route"),
    ("ruby_block", "ruby_block"), ("scm", "scm"), ("script", "script"), ("service", "service"),
    ("subversion", "subversion"), ("template", "file"), ("user", "user")]
  /-- Actions and the states that they bring about. -/
  actions : List (String × String) := [
    ("install", "installed"), ("upgrade", "latest"), ("remove", "absent"), ("purge", "purged"),
    ("create", "present"), ("delete", "absent"), ("start", "running"), ("stop", "stopped")]
  /-- Types whose action goes without saying. -/
  defaultActions : List (String × String) := [("package", "install"), ("gem_package", "install")]
  deriving DecidableEq, Repr

namespace Tables

def typeName (t : Tables) (resourceType : String) : String :=
  (t.resourceTypes.lookup resourceType).getD resourceType

/-- The state that an action brings about. -/
def stateOf (t : Tables) (action : String) : String :=
  (t.actions.lookup action).getD action

/-- The state of a resource of that type when nothing else is said. -/
def defaultState? (t : Tables) (resourceType : String) : Option String :=
  (t.defaultActions.lookup resourceType).map t.stateOf

end Tables

end RecipeManifest
