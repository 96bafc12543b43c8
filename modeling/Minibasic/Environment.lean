/-!
Environments: chains of scopes, from the innermost outwards. A chain names its scopes; what they
bind is kept in a store that all chains share.
-/

namespace Minibasic

/-- The number of a scope, in order of creation. -/
abbrev ScopeId := Nat

/-- A scope and those around it. -/
structure Environment where
  scope : ScopeId
  outer : List ScopeId
deriving DecidableEq, Inhabited

namespace Environment

/-- All scopes that names are looked up in, in this order. -/
def chain (e : Environment) : List ScopeId := e.scope :: e.outer

def depth (e : Environment) : Nat := e.chain.length

/-- The environment with the scope `id` inside all of `e`. -/
def child (id : ScopeId) (e : Environment) : Environment := ⟨id, e.chain⟩

@[simp] theorem chain_child (id : ScopeId) (e : Environment) :
    (e.child id).chain = id :: e.chain := rfl

@[simp] theorem depth_child (id : ScopeId) (e : Environment) :
    (e.child id).depth = e.depth + 1 := rfl

end Environment

end Minibasic
