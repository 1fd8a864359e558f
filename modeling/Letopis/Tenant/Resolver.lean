import Letopis.Encoding.Sha256
import Letopis.Encoding.Text
import Letopis.Tenant.Principal

/-!
# The resolver of API keys

`newResolver` builds the table of API keys from the configured tenants. It refuses a tenant without
an id, a key that is not given as exactly one of a hash and a plaintext, a key without a known scope
and a key that is there already. About the databases of the tenants it asks nothing.

Texts are lower-cased and trimmed as ASCII.
-/

namespace Letopis

/-- A key as it is configured. -/
structure KeySpec where
  hash : String := ""
  plaintext : String := ""
  scopes : List String
  collections : List String := []

/-- A tenant as it is configured. -/
structure Spec where
  id : String
  dbURI : String := ""
  /-- The name of the database, empty for the derived one. -/
  dbName : String := ""
  keys : List KeySpec := []

/-- The tenant that is configured. -/
def Spec.tenant (s : Spec) : Tenant := ⟨s.id, s.dbURI, s.dbName⟩

/-- What is wrong with the configured tenants. -/
inductive ResolverErr where
  | emptyID
  | bothHashAndKey (tenantID : String) (idx : Nat)
  | malformedHash (tenantID : String) (idx : Nat)
  | noKey (tenantID : String) (idx : Nat)
  | noScope (tenantID : String)
  | unknownScope (tenantID scope : String)
  | duplicateHash (tenantID hash : String)

/-- A key is configured in plaintext. -/
structure PlaintextWarning where
  tenantID : String
  idx : Nat

/-- The scheme that a hash names. -/
def keyScheme : String := "sha256:"

/-- The hash under which a key is stored. -/
def hashKey (raw : String) : String :=
  keyScheme ++ .ofList (Text.hex (Sha256.sum256 (Text.bytes raw)))

/-- Drop the white space at both ends. -/
def trimSpace (s : String) : String :=
  .ofList ((s.toList.dropWhile Char.isWhitespace).rdropWhile Char.isWhitespace)

/-- The hash of a configured key, with a warning if it is configured in plaintext. -/
def keyHash (tenantID : String) (idx : Nat) (ks : KeySpec) :
    Except ResolverErr (String × Option PlaintextWarning) :=
  if ks.hash ≠ "" ∧ ks.plaintext ≠ "" then .error (.bothHashAndKey tenantID idx)
  else if ks.hash ≠ "" then
    let h := (trimSpace ks.hash).map Char.toLower
    if ¬ keyScheme.toList <+: h.toList ∨ h.utf8ByteSize ≠ keyScheme.utf8ByteSize + 64 then
      .error (.malformedHash tenantID idx)
    else .ok (h, none)
  else if ks.plaintext ≠ "" then .ok (hashKey ks.plaintext, some ⟨tenantID, idx⟩)
  else .error (.noKey tenantID idx)

/-- A scope by its name. -/
def parseScope : String → Option Scope
  | "write" => some .write
  | "read" => some .read
  | "admin" => some .admin
  | _ => none

/-- The scopes of a key; there must be one. -/
def parseScopes (tenantID : String) (raw : List String) : Except ResolverErr (List Scope) :=
  if raw = [] then .error (.noScope tenantID)
  else raw.mapM fun s =>
    match parseScope s with
    | some scope => .ok scope
    | none => .error (.unknownScope tenantID s)

/-- The principals, by the hash of their key, and the warnings, last first. -/
structure Resolver where
  byHash : List (String × Principal) := []
  /-- What is dubious about the configuration. -/
  warnings : List PlaintextWarning := []

namespace Resolver

/-- Add a key of a tenant. -/
def addKey (s : Spec) (r : Resolver) (idx : Nat) (ks : KeySpec) : Except ResolverErr Resolver := do
  let (hash, warning) ← keyHash s.id idx ks
  let scopes ← parseScopes s.id ks.scopes
  if hash ∈ r.byHash.map Prod.fst then .error (.duplicateHash s.id hash)
  else
    return { byHash := (hash, ⟨s.tenant, scopes, ks.collections⟩) :: r.byHash
             warnings := warning.toList ++ r.warnings }

/-- Add a tenant. -/
def addSpec (r : Resolver) (s : Spec) : Except ResolverErr Resolver :=
  if s.id = "" then .error .emptyID
  else s.keys.zipIdx.foldlM (fun r k => r.addKey s k.2 k.1) r

/-- Build the resolver from the configured tenants. -/
def newResolver (specs : List Spec) : Except ResolverErr Resolver := specs.foldlM addSpec {}

/-- The principal of a key. -/
def resolve (r : Resolver) (raw : String) : Option Principal :=
  if raw = "" then none else r.byHash.lookup (hashKey raw)

end Resolver

end Letopis
