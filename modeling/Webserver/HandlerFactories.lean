import Webserver.Strings

/-!
# Handler factories

The parsed configuration, the factories that `SetPaths` creates from it, and the file path
that a static or CRUD factory hands to its handler.
-/

set_option autoImplicit false

namespace Webserver

/-- One statement of a parsed configuration: its tokens and, if it has one, its block. -/
inductive NginxConfigStatement where
  | mk (tokens : List Str) (childBlock : Option (List NginxConfigStatement))

abbrev NginxConfig := List NginxConfigStatement

namespace NginxConfigStatement

def tokens : NginxConfigStatement → List Str
  | mk tokens _ => tokens

def childBlock : NginxConfigStatement → Option NginxConfig
  | mk _ childBlock => childBlock

end NginxConfigStatement

namespace FileHandlerFactory

/-- The root of a block whose only statement is a root directive, ended by a slash. -/
def getRoot (config : NginxConfig) : Str :=
  match config with
  | [statement] =>
    match statement.tokens with
    | name :: root :: _ =>
      if name = "root".toList then
        if root = [] ∨ root.getLast? ≠ some '/' then root ++ ['/'] else root
      else []
    | _ => []
  | _ => []

def getCompleteFilePath (config : NginxConfig) (filePath : Str) : Str :=
  getRoot config ++ filePath

theorem getRoot_eq_nil_or (config : NginxConfig) :
    getRoot config = [] ∨ ∃ r, getRoot config = r ++ ['/'] := by
  unfold getRoot
  split
  · split
    · split
      · split
        · exact Or.inr ⟨_, rfl⟩
        · rename_i h
          exact Or.inr (List.getLast?_eq_some_iff.mp (not_not.mp (not_or.mp h).2))
      · exact Or.inl rfl
    · exact Or.inl rfl
  · exact Or.inl rfl

end FileHandlerFactory

/-- The factories by class. -/
inductive HandlerFactory where
  | staticHandler (config : NginxConfig)
  | crudHandler (config : NginxConfig)
  | echoHandler
  | healthHandler
  | sleepHandler
  | notFoundHandler
  | websocketInfoHandler

/-- `handler_factories_` as `SetPaths` leaves it, with `/` bound to the NotFoundHandler. -/
structure HandlerFactories where
  find : Str → Option HandlerFactory
  top : find ['/'] = some .notFoundHandler

end Webserver
