import Mathlib.Data.List.Infix

/-!
# Tenants and their keys

An API key speaks for one tenant. It carries scopes, which say what it may do, and a mask of
collection patterns, which says where.
-/

namespace Letopis

/-- A permission of an API key. -/
inductive Scope where
  | write
  | read
  | admin
  deriving DecidableEq

/-- A tenant, with the database that is configured for it. -/
structure Tenant where
  id : String
  dbURI : String := ""
  /-- The name of the database, empty for the derived one. -/
  dbName : String := ""
  deriving DecidableEq

/-- The physical database that the tenant's data lives in. -/
def Tenant.databaseName (t : Tenant) : String :=
  if t.dbName ≠ "" then t.dbName else "hm_t_" ++ t.id

/-- Every database has a name, also that of a tenant without an id. -/
theorem Tenant.databaseName_ne_empty (t : Tenant) : t.databaseName ≠ "" := by
  rw [databaseName]
  split_ifs with h
  · exact h
  · simp

/-- What a key may do, and in which collections. -/
structure APIKey where
  scopes : List Scope
  collections : List String

/-- The identity of a request: a tenant, and the key that has authorized it. -/
structure Principal where
  tenant : Tenant
  key : APIKey

/-- One pattern of a mask: everything, the collections below a name, or one collection. -/
def matchPattern (pat name : String) : Bool :=
  if pat = "*" then true
  else if ".*".toList <:+ pat.toList then
    let stem := pat.toList.take (pat.toList.length - 2)
    name.toList = stem || decide (stem ++ ['.'] <+: name.toList)
  else pat = name

/-- The mask admits the collection. -/
def matchCollection (patterns : List String) (name : String) : Bool :=
  patterns.any fun pat => matchPattern pat name

namespace Principal

/-- The key has the permission. -/
def hasScope (p : Principal) (s : Scope) : Bool := s ∈ p.key.scopes

/-- The key's mask admits the collection. -/
def canAccess (p : Principal) (collection : String) : Bool :=
  matchCollection p.key.collections collection

end Principal

end Letopis
