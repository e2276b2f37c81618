import SharedConfig.Store.Collection

/-!
# SharedConfig.Store.Selection

Which context is the current one of a target, and which server is the current one.  A selection of
something that is not there counts as none.

Main statements:

* `currentContextPath_injective` — each target has a selection of its own.
-/

namespace SharedConfig

def currentContextPath (t : Target) : KeyPath := KeyPath.of ["currentContext", t.name] .scalar

def currentServerPath : KeyPath := KeyPath.of ["currentServer"] .scalar

theorem currentContextPath_injective {t u : Target}
    (h : currentContextPath t = currentContextPath u) : t = u := by
  cases t <;> cases u <;> first | rfl | (exact absurd h (by decide))

def currentContext (t : Target) (root : Node) : Except StoreError Context :=
  match root.getScalar (currentContextPath t) with
  | none => .error (.notFound "current context" t.name)
  | some name =>
    match RecordKind.context.find name root with
    | .ok c => .ok c
    | .error e => if e.isNotFound then .error (.notFound "current context" t.name) else .error e

/-- The contexts that are current for some targets; targets without one are passed over. -/
def currentContextsOf (root : Node) : List Target → Except StoreError (List (Target × Context))
  | [] => .ok []
  | t :: rest =>
    match currentContext t root with
    | .ok c =>
      match currentContextsOf root rest with
      | .ok cs => .ok ((t, c) :: cs)
      | .error e => .error e
    | .error e => if e.isNotFound then currentContextsOf root rest else .error e

/-- The contexts that are current for all targets that have one. -/
def currentContexts (root : Node) : Except StoreError (List (Target × Context)) :=
  currentContextsOf root Target.all

/-- The targets whose selection is a name. -/
def targetsSelecting (name : String) (root : Node) : List Target :=
  Target.all.filter fun t => decide (root.getScalar (currentContextPath t) = some name)

def currentServer (root : Node) : Except StoreError Server :=
  match root.getScalar currentServerPath with
  | none => .error (.notFound "current server" "currentServer")
  | some name =>
    if RecordKind.server.contains name root then RecordKind.server.find name root
    else .error (.notFound "current server" "currentServer")

end SharedConfig
