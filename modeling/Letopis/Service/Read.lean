import Letopis.Domain.Reconstruct
import Letopis.Storage.Histories

/-!
# Point-in-time reads

`stateAt` reconstructs an entity at a past version or time: it resolves the target version, looks
for the nearest snapshot at or below it and replays the events in between. A missing snapshot, or
a failed lookup, only makes the replay longer.

`stateAt_wp` says that a read at a stored version reports the replay of the whole history up to
it, whichever snapshots are left, as long as each of them is the replay of its own version.
-/

namespace Letopis

open Interleaving List

/-- What a point-in-time read asks for: a version, a time, or the latest version. -/
structure PointInTimeQuery where
  version : Option Int := none
  atTime : Option Time := none

/-- What a point-in-time read returns. -/
structure ReconstructedState where
  entityID : String
  version : Int
  ts : Time
  deleted : Bool
  state : Fields
  /-- The version of the snapshot the replay started from, zero for none. -/
  snapshotVersion : Int
  eventsApplied : Nat

/-- Why a read failed. -/
inductive ReadErr where
  /-- A storage call failed, or nothing was found. -/
  | store (cause : StoreErr)
  | replay (cause : DiffErr)

/-- The version a query asks for. A version is clamped to the latest, a time is the last version
received at or before it. -/
def resolveTarget (collection entityID : String) (last : Event) (q : PointInTimeQuery) :
    Prog Storage (Except ReadErr Int) :=
  match q.version, q.atTime with
  | some v, _ => return .ok (min v last.version)
  | none, some t => do
    match ← Storage.ask (.listEvents collection
        { entityID, tsTo := t, orderBy := .version, order := .desc, limit := 1 }) with
    | .error e => return .error (.store e)
    | .ok [] => return .error (.store .notFound)
    | .ok (ev :: _) => return .ok ev.version
  | none, none => return .ok last.version

/-- The nearest snapshot at or below the target, with its version and time; the empty state at
version zero if there is none or it cannot be read. -/
def anchor (snapshots : Bool) (collection entityID : String) (target : Int) :
    Prog Storage (Fields × Bool × Int × Time) := do
  if snapshots then
    match ← Storage.ask (.nearestSnapshot collection entityID target) with
    | .error _ => return ([], false, 0, .zero)
    | .ok snap => return (snap.state, snap.deleted, snap.version, snap.ts)
  else return ([], false, 0, .zero)

/-- The events of an entity above one version and up to another, in version order. -/
def tailFilter (entityID : String) (snapVersion target : Int) : EventFilter :=
  { entityID, maxVersion := target, orderBy := .version, order := .asc,
    after := if 0 < snapVersion then some { version := snapVersion } else none }

/-- Reconstruct an entity at a past version or time. -/
def stateAt (snapshots : Bool) (collection entityID : String) (q : PointInTimeQuery) :
    Prog Storage (Except ReadErr ReconstructedState) := do
  match ← Storage.ask (.lastEvent collection entityID) with
  | .error e => return .error (.store e)
  | .ok last =>
    match ← resolveTarget collection entityID last q with
    | .error e => return .error e
    | .ok target =>
      let (base, baseDeleted, snapVersion, snapTS) ←
        anchor snapshots collection entityID target
      match ← Storage.ask (.listEvents collection (tailFilter entityID snapVersion target)) with
      | .error e => return .error (.store e)
      | .ok tail =>
        match reconstruct base baseDeleted tail with
        | .error e => return .error (.replay e)
        | .ok (state, deleted) =>
          return .ok { entityID, version := target,
                       ts := (tail.getLast?.map Event.tsReceived).getD snapTS, deleted, state,
                       snapshotVersion := snapVersion, eventsApplied := tail.length }

/-! ### The tail of a history -/

theorem Db.Sequenced.list_tailFilter {db : Db} {c e : String} (h : db.Sequenced c e) (he : e ≠ "")
    {a b : Nat} (hb : 1 ≤ b) :
    (tailFilter e a b).list (db c).events = ((db.hist c e).take b).drop a := by
  have hselects : ((db c).events.filter fun ev => (tailFilter e a b).selects ev) =
      (db.hist c e).filter fun ev => a < ev.version ∧ ev.version ≤ b := by
    rw [Db.hist, filter_filter]
    refine filter_congr fun ev hev => ?_
    by_cases hee : ev.entityID = e
    · -- without a snapshot there is no lower bound, and none is needed
      have hpos := (h.mem_versions (Db.mem_hist.mpr ⟨hev, hee⟩)).1
      have hb' : ¬ b = 0 := by omega
      by_cases ha : 0 < a
      · simp [EventFilter.selects, EventFilter.afterCursor, tailFilter, hee, ha, Time.isZero,
          Time.zero, hb']
      · have ha' : a = 0 := by omega
        simp [EventFilter.selects, tailFilter, hee, ha', Time.isZero, Time.zero, hb']
        omega
    · simp [EventFilter.selects, tailFilter, hee, he]
  have hsorted : (((db.hist c e).take b).drop a).Pairwise
      fun x y => (tailFilter e a b).precedes x y = true := by
    have hsub : (((db.hist c e).take b).drop a).Sublist (db.hist c e) :=
      (drop_sublist _ _).trans (take_sublist _ _)
    refine (h.pairwise_version.sublist hsub).imp ?_
    intro x y hxy
    simp [EventFilter.precedes, EventFilter.sortTime, tailFilter, hxy]
  rw [EventFilter.list, hselects, h.filter_versions]
  exact (if_pos rfl).trans hsorted.insertionSort_eq

/-! ### Reads at a version -/

/-- Every snapshot of the entity is what the history reports at its version. -/
def Db.SnapshotsReplay (db : Db) (c e : String) : Prop :=
  ∀ snap ∈ (db c).snapshots, snap.entityID = e →
    Reports (db.hist c e) snap.version snap.state snap.deleted

/-- The faults a read tolerates: a snapshot lookup may fail. -/
def SnapshotFaults (call : Call) (f : Fault) : Prop :=
  f = .none ∨ ∃ c e v, call = .nearestSnapshot c e v

section

variable {srv : Server} {db : Db} {c e : String} {seen : List (Obs Storage)} {v : Nat}

/-- Wherever the replay starts, it starts from the replay of what it leaves out. -/
theorem anchor_wp {snapshots : Bool} (hsnap : db.SnapshotsReplay c e) :
    Wp (handle srv) SnapshotFaults (fun a _ db' => db' = db ∧ ∃ n : Nat, a.2.2.1 = (n : Int) ∧
      n ≤ v ∧ reconstruct [] false ((db.hist c e).take n) = .ok (a.1, a.2.1))
      (anchor snapshots c e v) seen db := by
  have hgenesis : reconstruct [] false ((db.hist c e).take 0) = .ok ([], false) := rfl
  rw [anchor]
  split_ifs
  · refine Wp.ask_bind_iff.mpr fun f _ => ?_
    cases f with
    | before => exact ⟨rfl, 0, rfl, Nat.zero_le _, hgenesis⟩
    | after => exact ⟨rfl, 0, rfl, Nat.zero_le _, hgenesis⟩
    | none =>
      dsimp only [handle, serve]
      cases hm : ((db c).snapshots.filter fun s => s.entityID = e ∧ (s.version : Int) ≤ v).argmax
          Snapshot.version with
      | none => exact ⟨rfl, 0, rfl, Nat.zero_le _, hgenesis⟩
      | some snap =>
        obtain ⟨hmem, hpass⟩ := mem_filter.mp (argmax_mem hm)
        simp only [decide_eq_true_eq] at hpass
        exact ⟨rfl, snap.version, rfl, by omega, (hsnap snap hmem hpass.1).replay⟩
  · exact ⟨rfl, 0, rfl, Nat.zero_le _, hgenesis⟩

/-- **A read at a stored version** reports the replay of the history up to it, with or without
snapshots, whichever of them are left and whether or not their lookup fails. -/
theorem stateAt_wp {snapshots : Bool} (hseq : db.Sequenced c e) (he : e ≠ "")
    (hsnap : db.SnapshotsReplay c e) (hv : 1 ≤ v) {s : Fields} {d : Bool}
    (hrep : Reports (db.hist c e) v s d) :
    Wp (handle srv) SnapshotFaults (fun r _ _ => ∃ res, r = .ok res ∧ res.version = (v : Int) ∧
      res.state = s ∧ res.deleted = d) (stateAt snapshots c e { version := some v }) seen db := by
  obtain ⟨hle, hrec⟩ := hrep
  refine Wp.ask_bind_iff.mpr fun f hf => ?_
  obtain rfl : f = .none := hf.resolve_right (by simp)
  dsimp only [handle, serve]
  have htop := hseq.top_eq
  rw [Db.top] at htop
  cases hm : (db.hist c e).argmax Event.version with
  | none =>
    rw [argmax_eq_none.mp hm] at hle
    exact absurd (hv.trans hle) (by simp)
  | some last =>
    rw [hm] at htop
    have hlast : last.version = (db.hist c e).length := htop
    have htarget : min (v : Int) last.version = v := by omega
    dsimp only [orNotFound, resolveTarget]
    rw [htarget, Prog.pure_eq, Prog.ret_bind]
    refine Wp.bind_iff.mpr ((anchor_wp hsnap).mono ?_)
    rintro ⟨base, baseDeleted, snapVersion, snapTS⟩ seen' db' ⟨rfl, n, hn, hnv, hbase⟩
    dsimp only at hn hbase ⊢
    refine Wp.ask_bind_iff.mpr fun f hf => ?_
    obtain rfl : f = .none := hf.resolve_right (by simp)
    dsimp only [handle, serve]
    rw [hn, hseq.list_tailFilter he hv]
    -- the tail goes on from where the base stands
    have htail : reconstruct base baseDeleted (((db'.hist c e).take v).drop n) = .ok (s, d) := by
      rw [← take_append_drop n ((db'.hist c e).take v), take_take, Nat.min_eq_left hnv,
        reconstruct_append, hbase] at hrec
      exact hrec
    rw [htail]
    exact ⟨_, rfl, rfl, rfl, rfl⟩

end

end Letopis
