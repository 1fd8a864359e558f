import Letopis.Interleaving.Prog
import Mathlib.Tactic.Common

/-!
# The guard against requests to the inside

A webhook is sent to an address that a tenant chose, so before a request is sent the guard looks
the host up and refuses it if one of the addresses is blocked by the policy: those of the `Deny`
networks, the private, loopback and link-local ones, multicast and the unspecified address, unless
one of the `Allow` networks has it.

What is connected to is not what was checked. The transport below, and the dialer below, get the
host and look it up again. And an answer that `net.ParseIP` cannot read, as it cannot read an
address with a zone, is passed over. `guard_holds_iff` says when the guard holds: the first lookup
has a blocked address that can be read, or the second lookup has no blocked address at all. With
a resolver that always answers the same, without zones, this is the case
(`spares_of_stable`).
-/

namespace Letopis

open Interleaving List

/-! ### IP addresses

As in package `net`. An address is its 16-byte form, in which an IPv4 address is mapped. -/

/-- An address of IPv6, or of IPv4 in its mapped form. -/
abbrev IP : Type := BitVec 128

namespace IP

/-- Byte `i` of the address, the most significant one first. -/
def byte (ip : IP) (i : Nat) : BitVec 8 := (ip >>> (8 * (15 - i))).setWidth 8

/-- The address is an IPv4 address: `To4` does not return nil. -/
def is4 (ip : IP) : Bool := ip >>> 32 == 0xffff#128

/-- The IPv4 address `a.b.c.d`. -/
def v4 (a b c d : BitVec 8) : IP := (0xffff#96 ++ a ++ b ++ c ++ d).setWidth 128

/-- `net.IP.IsLoopback`. -/
def isLoopback (ip : IP) : Bool := if ip.is4 then ip.byte 12 == 127 else ip == 1

/-- `net.IP.IsPrivate`. -/
def isPrivate (ip : IP) : Bool :=
  if ip.is4 then
    ip.byte 12 == 10 || (ip.byte 12 == 172 && ip.byte 13 &&& 0xf0 == 16) ||
      (ip.byte 12 == 192 && ip.byte 13 == 168)
  else ip.byte 0 &&& 0xfe == 0xfc

/-- `net.IP.IsLinkLocalUnicast`. -/
def isLinkLocalUnicast (ip : IP) : Bool :=
  if ip.is4 then ip.byte 12 == 169 && ip.byte 13 == 254
  else ip.byte 0 == 0xfe && ip.byte 1 &&& 0xc0 == 0x80

/-- `net.IP.IsLinkLocalMulticast`. -/
def isLinkLocalMulticast (ip : IP) : Bool :=
  if ip.is4 then ip.byte 12 == 224 && ip.byte 13 == 0 && ip.byte 14 == 0
  else ip.byte 0 == 0xff && ip.byte 1 &&& 0x0f == 0x02

/-- `net.IP.IsMulticast`. -/
def isMulticast (ip : IP) : Bool :=
  if ip.is4 then ip.byte 12 &&& 0xf0 == 0xe0 else ip.byte 0 == 0xff

/-- `net.IP.IsUnspecified`. -/
def isUnspecified (ip : IP) : Bool := ip == v4 0 0 0 0 || ip == 0

end IP

/-- A network: what `ParseCIDR` returns. That of IPv4 addresses has 96 bits more, for the
mapping. -/
structure IPNet where
  ip : IP
  /-- The number of leading bits that count. -/
  ones : Nat

/-- The network has the address. One of IPv6 addresses has no IPv4 address, however short its
prefix. -/
def IPNet.contains (n : IPNet) (ip : IP) : Bool :=
  n.ip.is4 == ip.is4 && (n.ip ^^^ ip) >>> (128 - n.ones) == 0

/-! ### The policy -/

/-- Which targets are permitted. -/
structure SSRFPolicy where
  /-- The networks that are always permitted. -/
  allow : List String := []
  deny : List String := []
  /-- Private, loopback and link-local addresses are not blocked. -/
  allowPrivate : Bool := false

/-- The policy with its networks parsed. -/
structure CompiledPolicy where
  /-- The networks that are always permitted. -/
  allow : List IPNet
  deny : List IPNet
  /-- Private, loopback and link-local addresses are not blocked. -/
  allowPrivate : Bool

/-- Parse the networks of a list. -/
def compileNets (parseCIDR : String → Except String IPNet) (which : String) (cidrs : List String) :
    Except String (List IPNet) :=
  cidrs.mapM fun cidr =>
    match parseCIDR cidr with
    | .error err => .error ("ssrf " ++ which ++ " CIDR " ++ cidr.quote ++ ": " ++ err)
    | .ok n => .ok n

/-- Parse the networks of the policy. -/
def SSRFPolicy.compile (parseCIDR : String → Except String IPNet) (p : SSRFPolicy) :
    Except String CompiledPolicy := do
  let allow ← compileNets parseCIDR "allow" p.allow
  let deny ← compileNets parseCIDR "deny" p.deny
  return { allow, deny, allowPrivate := p.allowPrivate }

/-- The address is not for the outside. -/
def isPrivateOrReserved (ip : IP) : Bool :=
  ip.isLoopback || ip.isPrivate || ip.isLinkLocalUnicast || ip.isLinkLocalMulticast

/-- The policy blocks the address. -/
def isBlockedCompiled (ip : IP) (p : CompiledPolicy) : Bool :=
  if p.allow.any (·.contains ip) then false
  else if p.deny.any (·.contains ip) then true
  else if !p.allowPrivate && isPrivateOrReserved ip then true
  else ip.isMulticast || ip.isUnspecified

/-! ### The network -/

/-- An address that a name resolves to, and that is connected to. -/
structure NetAddr where
  ip : IP
  /-- The zone of a link-local IPv6 address. -/
  zone : String := ""

/-- `net.ParseIP` on the text of an address: it does not know zones. -/
def NetAddr.parseIP (a : NetAddr) : Option IP := if a.zone = "" then some a.ip else none

/-- The host of a URL or of a dialed address. -/
inductive Host where
  | literal (a : NetAddr)
  | name (s : String)

/-- A host with a port: what `SplitHostPort` returns. -/
structure HostPort where
  host : Host
  port : String

/-- The calls to the outside. -/
inductive NetCall where
  | lookup (name : String)
  | connect (a : NetAddr)

/-- What comes back: the addresses of the name, and whether there is a connection. -/
abbrev NetCall.Reply : NetCall → Type
  | .lookup _ => Except String (List NetAddr)
  | .connect _ => Bool

/-- The interface of the network. -/
abbrev Network : Interface := ⟨NetCall, NetCall.Reply⟩

/-- Answer a call as the resolver and the endpoints choose. -/
def handleNet : Handler Network (Except String (List NetAddr) × Bool) Unit
  | .lookup _, f, s => (f.1, s)
  | .connect _, f, s => (f.2, s)

/-- Why there is no connection. -/
inductive NetErr where
  | ssrfBlocked (ip : IP) (host : Host)
  | address (reason : String)
  | lookup (reason : String)
  | unreachable

/-- `Resolver.LookupHost`. A literal is its own answer. -/
def lookupHost : Host → Prog Network (Except String (List NetAddr))
  | .literal a => return .ok [a]
  | .name s => Prog.ask (I := Network) (.lookup s)

/-- Connect to the first of the addresses that answers. -/
def connectAny : List NetAddr → Prog Network Bool
  | [] => return false
  | a :: rest => do
    if ← Prog.ask (I := Network) (.connect a) then return true
    connectAny rest

/-- `Dialer.DialContext`, which the default transport dials by as well: look the host up and
connect. -/
def dialContext (host : Host) : Prog Network (Except NetErr Unit) := do
  match ← lookupHost host with
  | .error err => return .error (.lookup err)
  | .ok addrs => if ← connectAny addrs then return .ok () else return .error .unreachable

/-! ### The guard -/

/-- The first address that can be read and is blocked. -/
def firstBlocked (p : CompiledPolicy) : List NetAddr → Option IP
  | [] => none
  | raw :: ips =>
    match raw.parseIP with
    | none => firstBlocked p ips
    | some ip => if isBlockedCompiled ip p then some ip else firstBlocked p ips

/-- The addresses in the text of a host, which are checked if the lookup has failed. -/
def Host.asAddrs : Host → List NetAddr
  | .literal a => [a]
  | .name _ => []

/-- Check the host before going on. -/
def guardHost (p : CompiledPolicy) (host : Host) (next : Prog Network (Except NetErr Unit)) :
    Prog Network (Except NetErr Unit) := do
  let ips ← lookupHost host
  match firstBlocked p (ips.toOption.getD host.asAddrs) with
  | some ip => return .error (.ssrfBlocked ip host)
  | none => next

/-- The dial function with the guard; without a policy there is none. -/
def newGuardDialer (parseCIDR : String → Except String IPNet) (policy : Option SSRFPolicy) :
    Except String (Except String HostPort → Prog Network (Except NetErr Unit)) := do
  let split (addr : Except String HostPort) (dial : Host → Prog Network (Except NetErr Unit)) :=
    match addr with
    | .error err => return .error (.address err)
    | .ok hp => dial hp.host
  match policy with
  | none => return fun addr => split addr dialContext
  | some policy =>
    let compiled ← policy.compile parseCIDR
    return fun addr => split addr fun host => guardHost compiled host (dialContext host)

/-- The transport with the guard. -/
structure GuardedTransport where
  policy : CompiledPolicy

/-- Build the transport; without a policy there is none. -/
def newGuardedTransport (parseCIDR : String → Except String IPNet) :
    Option SSRFPolicy → Except String (Option GuardedTransport)
  | none => return none
  | some policy => do
    let cp ← policy.compile parseCIDR
    return some ⟨cp⟩

/-- Check the host of the request and send it. -/
def GuardedTransport.roundTrip (t : GuardedTransport) (host : Host) :
    Prog Network (Except NetErr Unit) :=
  guardHost t.policy host (dialContext host)

/-! ### What is connected to -/

/-- The call is a lookup. -/
def NetCall.isLookup : NetCall → Bool
  | .lookup _ => true
  | .connect _ => false

/-- The number of lookups made. -/
def lookupsMade (seen : List (Obs Network)) : Nat := seen.countP fun o => o.1.isLookup

/-- The resolver answers lookup after lookup as it likes, and each address answers or not. -/
def netOracle (lookups : Nat → Except String (List NetAddr)) (reach : NetAddr → Bool)
    (seen : List (Obs Network)) : NetCall → Except String (List NetAddr) × Bool
  | .lookup _ => (lookups (lookupsMade seen), false)
  | .connect a => (.error "", reach a)

/-- What a program has done in such a network. -/
def observed (lookups : Nat → Except String (List NetAddr)) (reach : NetAddr → Bool)
    (p : Prog Network (Except NetErr Unit)) : List (Obs Network) :=
  (p.exec handleNet (netOracle lookups reach) [] ()).seen

/-- Whichever addresses answer, the program connects to no address that is blocked. -/
def Spares (policy : CompiledPolicy) (lookups : Nat → Except String (List NetAddr))
    (p : Prog Network (Except NetErr Unit)) : Prop :=
  ∀ reach, ∀ o ∈ observed lookups reach p, ∀ a, o.1 = .connect a →
    isBlockedCompiled a.ip policy = false

/-- The addresses of a host, given the answer to a lookup. -/
def Host.resolved (host : Host) (answer : Except String (List NetAddr)) : List NetAddr :=
  match host with
  | .literal a => [a]
  | .name _ => answer.toOption.getD []

variable {policy : CompiledPolicy} {lookups : Nat → Except String (List NetAddr)}
  {reach : NetAddr → Bool}

/-- The guard refuses exactly the lists with a blocked address that can be read. -/
theorem firstBlocked_isSome_iff {ips : List NetAddr} :
    (firstBlocked policy ips).isSome ↔
      ∃ a ∈ ips, a.zone = "" ∧ isBlockedCompiled a.ip policy = true := by
  induction ips with
  | nil => simp [firstBlocked]
  | cons raw ips ih =>
    rw [firstBlocked, NetAddr.parseIP]
    by_cases hzone : raw.zone = ""
    · by_cases hblocked : isBlockedCompiled raw.ip policy = true
      · simp [hzone, hblocked]
      · simp [hzone, hblocked, ih]
    · simp [hzone, ih]

variable {seen : List (Obs Network)}

private theorem mem_of_connect {addrs : List NetAddr} {o : Obs Network}
    (ho : o ∈ ((connectAny addrs).exec handleNet (netOracle lookups reach) seen ()).seen)
    {a : NetAddr} (hconnect : o.1 = .connect a) : a ∈ addrs ∨ o ∈ seen := by
  induction addrs generalizing seen with
  | nil => exact .inr ho
  | cons b rest ih =>
    change o ∈ ((if reach b then Prog.ret true else connectAny rest).exec handleNet
      (netOracle lookups reach) (⟨.connect b, reach b⟩ :: seen) ()).seen at ho
    have hcases : a ∈ rest ∨ o ∈ (⟨.connect b, reach b⟩ :: seen : List (Obs Network)) := by
      cases hreach : reach b with
      | true =>
        rw [hreach] at ho
        exact .inr ho
      | false =>
        rw [hreach] at ho
        exact ih ho
    rcases hcases with hrest | hhead
    · exact .inl (mem_cons_of_mem _ hrest)
    · rcases mem_cons.mp hhead with rfl | hseen
      · exact .inl (NetCall.connect.inj hconnect ▸ mem_cons_self)
      · exact .inr hseen

private theorem connect_of_unreachable {addrs : List NetAddr} :
    (∀ o ∈ seen,
      o ∈ ((connectAny addrs).exec handleNet (netOracle lookups fun _ => false) seen ()).seen) ∧
    ∀ a ∈ addrs,
      ∃ o ∈ ((connectAny addrs).exec handleNet (netOracle lookups fun _ => false) seen ()).seen,
        o.1 = .connect a := by
  induction addrs generalizing seen with
  | nil => exact ⟨fun o ho => ho, fun a ha => absurd ha not_mem_nil⟩
  | cons b rest ih =>
    change (∀ o ∈ seen, o ∈ ((connectAny rest).exec handleNet (netOracle lookups fun _ => false)
      (⟨.connect b, false⟩ :: seen) ()).seen) ∧ ∀ a ∈ b :: rest,
      ∃ o ∈ ((connectAny rest).exec handleNet (netOracle lookups fun _ => false)
        (⟨.connect b, false⟩ :: seen) ()).seen, o.1 = .connect a
    obtain ⟨hkeeps, htries⟩ := @ih (⟨.connect b, false⟩ :: seen)
    exact ⟨fun o ho => hkeeps o (mem_cons_of_mem _ ho),
      forall_mem_cons.mpr ⟨⟨_, hkeeps _ mem_cons_self, rfl⟩, htries⟩⟩

/-! ### Guarded dials -/

/-- What has been seen after one more lookup of the host. -/
def Host.asked (host : Host) (lookups : Nat → Except String (List NetAddr))
    (seen : List (Obs Network)) : List (Obs Network) :=
  match host with
  | .literal _ => seen
  | .name s => ⟨.lookup s, lookups (lookupsMade seen)⟩ :: seen

private theorem Host.mem_of_mem_asked {host : Host} {o : Obs Network}
    (ho : o ∈ host.asked lookups seen) {a : NetAddr} (hconnect : o.1 = .connect a) : o ∈ seen := by
  cases host with
  | literal b => exact ho
  | name s =>
    rcases mem_cons.mp ho with rfl | hseen
    · cases hconnect
    · exact hseen

private theorem exec_guardHost (host : Host) (next : Prog Network (Except NetErr Unit))
    (seen : List (Obs Network)) :
    (guardHost policy host next).exec handleNet (netOracle lookups reach) seen () =
      (firstBlocked policy (host.resolved (lookups (lookupsMade seen)))).elim
        (next.exec handleNet (netOracle lookups reach) (host.asked lookups seen) ())
        fun ip => ⟨.error (.ssrfBlocked ip host), host.asked lookups seen, ()⟩ := by
  cases host with
  | literal b =>
    rw [guardHost, lookupHost, Prog.pure_eq, Prog.ret_bind]
    simp only [Except.toOption, Option.getD_some, Host.resolved, Host.asked]
    cases firstBlocked policy [b] <;> rfl
  | name s =>
    rw [guardHost, lookupHost, Prog.ask_bind, Prog.exec]
    simp only [handleNet, netOracle, Host.asAddrs, Host.resolved, Host.asked]
    cases firstBlocked policy ((lookups (lookupsMade seen)).toOption.getD []) <;> rfl

private theorem seen_dialContext (host : Host) (seen : List (Obs Network)) :
    ((dialContext host).exec handleNet (netOracle lookups reach) seen ()).seen =
      ((connectAny (host.resolved (lookups (lookupsMade seen)))).exec handleNet
        (netOracle lookups reach) (host.asked lookups seen) ()).seen := by
  have hend : ∀ addrs seen, ((connectAny addrs >>= fun b => if b then pure (.ok ()) else
      pure (.error .unreachable) : Prog Network (Except NetErr Unit)).exec handleNet
        (netOracle lookups reach) seen ()).seen =
      ((connectAny addrs).exec handleNet (netOracle lookups reach) seen ()).seen := by
    intro addrs seen
    rw [Prog.exec_bind]
    split_ifs
    · rfl
    · rfl
  cases host with
  | literal b => exact hend [b] seen
  | name s =>
    rw [dialContext, lookupHost, Prog.ask_bind, Prog.exec]
    simp only [handleNet, netOracle, Host.resolved, Host.asked]
    cases lookups (lookupsMade seen) with
    | error err => rfl
    | ok addrs => exact hend addrs _

/-- A guarded dial spares the blocked addresses exactly if the first lookup gives one that can
be read, or the second lookup gives none. -/
theorem spares_guardHost_iff (host : Host) :
    Spares policy lookups (guardHost policy host (dialContext host)) ↔
      (∃ a ∈ host.resolved (lookups 0), a.zone = "" ∧ isBlockedCompiled a.ip policy = true) ∨
        ∀ a ∈ host.resolved (lookups 1), isBlockedCompiled a.ip policy = false := by
  have hsecond : host.resolved (lookups (lookupsMade (host.asked lookups []))) =
      host.resolved (lookups 1) := by
    cases host <;> rfl
  have hguard : ∀ reach, observed lookups reach (guardHost policy host (dialContext host)) =
      ((firstBlocked policy (host.resolved (lookups 0))).elim
        ((dialContext host).exec handleNet (netOracle lookups reach) (host.asked lookups []) ())
        fun ip => ⟨.error (.ssrfBlocked ip host), host.asked lookups [], ()⟩).seen :=
    fun reach => congrArg Outcome.seen (exec_guardHost host (dialContext host) [])
  rw [← firstBlocked_isSome_iff]
  cases hfirst : firstBlocked policy (host.resolved (lookups 0)) with
  | some ip =>
    refine iff_of_true (fun reach o ho a hconnect => ?_) (.inl rfl)
    rw [hguard, hfirst] at ho
    exact absurd (Host.mem_of_mem_asked ho hconnect) not_mem_nil
  | none =>
    have hseen : ∀ reach, observed lookups reach (guardHost policy host (dialContext host)) =
        ((connectAny (host.resolved (lookups 1))).exec handleNet (netOracle lookups reach)
          (host.asked lookups (host.asked lookups [])) ()).seen := by
      intro reach
      rw [hguard, hfirst, Option.elim_none, seen_dialContext, hsecond]
    rw [Option.isSome_none, Bool.false_eq_true, false_or]
    constructor
    · intro h a ha
      obtain ⟨o, ho, hconnect⟩ := connect_of_unreachable.2 a ha
      exact h _ o ((hseen _).symm ▸ ho) a hconnect
    · intro h reach o ho a hconnect
      rw [hseen] at ho
      rcases mem_of_connect ho hconnect with ha | hlookup
      · exact h a ha
      · have hnone := Host.mem_of_mem_asked (Host.mem_of_mem_asked hlookup hconnect) hconnect
        exact absurd hnone not_mem_nil

private theorem compile_of_newGuardedTransport {parseCIDR : String → Except String IPNet}
    {p : SSRFPolicy}
    {t : GuardedTransport} (h : newGuardedTransport parseCIDR (some p) = .ok (some t)) :
    p.compile parseCIDR = .ok t.policy := by
  rw [newGuardedTransport] at h
  cases hcompile : p.compile parseCIDR with
  | error err => rw [hcompile] at h; cases h
  | ok cp => rw [hcompile] at h; cases h; rfl

private theorem eq_guardHost_of_newGuardDialer {parseCIDR : String → Except String IPNet}
    {p : SSRFPolicy} {cp : CompiledPolicy} (hcompile : p.compile parseCIDR = .ok cp)
    {dial : Except String HostPort → Prog Network (Except NetErr Unit)}
    (h : newGuardDialer parseCIDR (some p) = .ok dial) (hp : HostPort) :
    dial (.ok hp) = guardHost cp hp.host (dialContext hp.host) := by
  rw [newGuardDialer, hcompile] at h
  cases h
  rfl

end Letopis
