import LineShell.Application.Excerpt
import LineShell.Application.Probe
import LineShell.Application.Sort
/-!
# Registries

A registry says which names stand for applications. A later registration replaces an earlier one of
the same name. Every environment starts with the built-in applications.
-/

namespace LineShell

structure Registry where
  find? : Text → Option Application

namespace Registry

def empty : Registry where
  find? _ := none

/-- Let a name stand for an application, whatever it stood for before. -/
def register (registry : Registry) (name : Text) (app : Application) : Registry where
  find? sought := if sought = name then some app else registry.find? sought

def ofList (apps : List (Text × Application)) : Registry :=
  apps.foldl (fun registry (name, app) => registry.register name app) empty

def builtins : List (Text × Application) :=
  [("echo".toList, .echo), ("cat".toList, .cat), ("head".toList, .head), ("tail".toList, .tail),
    ("sort".toList, .sort), ("date".toList, .date)]

def builtin : Registry :=
  ofList builtins

end Registry

end LineShell
