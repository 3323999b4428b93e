/-
  The coordinated checkpoints of a node (`core/blockchain.go`): in the database, in a cache and in
  memory, and the one that a synchronization sets.
-/
import Gwat.Common
import Gwat.Lib.Memo

namespace Gwat

open GoLib Function

/-- `types.Checkpoint` -/
structure Checkpoint where
  epoch : UInt64
  finEpoch : UInt64
  root : Hash
  spine : Hash
  deriving DecidableEq

/-- The checkpoints of the database: by their spines, the last one, and the spines by epochs. -/
structure CpStore where
  coordCp : Hash → Option Checkpoint
  lastCoordCp : Option Checkpoint
  epochCp : UInt64 → Hash

namespace CpStore

def empty : CpStore := ⟨fun _ => none, none, fun _ => 0⟩

variable (db : CpStore) (cp : Checkpoint)

def writeCoordinatedCheckpoint : CpStore :=
  { db with coordCp := update db.coordCp cp.spine (some cp) }

/-- `WriteLastCoordinatedCheckpoint` and `WriteEpoch` -/
def writeLast : CpStore :=
  { db with lastCoordCp := some cp, epochCp := update db.epochCp cp.finEpoch cp.spine }

end CpStore

/-- `currCp == nil || cp.Root != currCp.Root || cp.FinEpoch != currCp.FinEpoch` -/
def Checkpoint.changes (cp : Checkpoint) (currCp : Option Checkpoint) : Bool :=
  currCp.all fun curr => cp.root ≠ curr.root ∨ cp.finEpoch ≠ curr.finEpoch

/-- The fields of `BlockChain` that hold checkpoints. -/
structure CpNode where
  db : CpStore
  lastCoordinatedCp : Option Checkpoint
  checkpointCache : Lru Hash Checkpoint
  checkpointSyncCache : Option Checkpoint

namespace CpNode

/-- A node that starts on a database. -/
def start (db : CpStore) : CpNode := ⟨db, none, ∅, none⟩

def getLastCoordinatedCheckpoint (n : CpNode) : Option Checkpoint × CpNode :=
  match n.lastCoordinatedCp with
  | some cp => (some cp, n)
  | none =>
    match n.db.lastCoordCp with
    | none => (none, n)
    | some cp => (some cp, { n with lastCoordinatedCp := some cp })

def getSyncCheckpointCache (n : CpNode) (cpSpine : Hash) : Option Checkpoint :=
  n.checkpointSyncCache.filter fun cp => cp.spine = cpSpine

/-- `bc.checkpointCache.Add`, for `checkpointCacheLimit` entries -/
def cache (n : CpNode) (cpSpine : Hash) (cp : Checkpoint) : CpNode :=
  { n with checkpointCache := n.checkpointCache.add 16 cpSpine cp }

def getCoordinatedCheckpoint (n : CpNode) (cpSpine : Hash) : Option Checkpoint × CpNode :=
  match n.checkpointCache.get cpSpine with
  | (some cp, cache) => (some cp, { n with checkpointCache := cache })
  | (none, _) =>
    match n.db.coordCp cpSpine with
    | none => (n.getSyncCheckpointCache cpSpine, n)
    | some cp => (some cp, n.cache cpSpine cp)

/-- The first part of `SetLastCoordinatedCheckpoint` -/
def saveCheckpoint (n : CpNode) (cp : Checkpoint) : CpNode :=
  match n.getCoordinatedCheckpoint cp.spine with
  | (none, n) => cache { n with db := n.db.writeCoordinatedCheckpoint cp } cp.spine cp
  | (some _, n) => n

/-- `SetLastCoordinatedCheckpoint`; what it writes is in one batch. -/
def setLastCoordinatedCheckpoint (n : CpNode) (cp : Checkpoint) : CpNode :=
  let (currCp, n) := (n.saveCheckpoint cp).getLastCoordinatedCheckpoint
  if cp.changes currCp then { n with lastCoordinatedCp := some cp, db := n.db.writeLast cp } else n

end CpNode

/-- What happens to the checkpoints of a node.  A deleted block is removed from the cache. -/
inductive CpEvent where
  | getLast
  | getCoordinated (cpSpine : Hash)
  | setLast (cp : Checkpoint)
  | setSync (cp : Checkpoint)
  | resetSync
  | remove (hash : Hash)
  | restart

def CpNode.step (n : CpNode) : CpEvent → CpNode
  | .getLast => n.getLastCoordinatedCheckpoint.2
  | .getCoordinated cpSpine => (n.getCoordinatedCheckpoint cpSpine).2
  | .setLast cp => n.setLastCoordinatedCheckpoint cp
  | .setSync cp => { n with checkpointSyncCache := some cp }
  | .resetSync => { n with checkpointSyncCache := none }
  | .remove hash => { n with checkpointCache := n.checkpointCache.remove hash }
  | .restart => start n.db

/-! ## Checkpoints without caches -/

/-- The database and the checkpoint of a synchronization. -/
structure Checkpoints extends CpStore where
  sync : Option Checkpoint

namespace Checkpoints

def find (s : Checkpoints) (cpSpine : Hash) : Option Checkpoint :=
  (s.coordCp cpSpine).or (s.sync.filter fun cp => cp.spine = cpSpine)

/-- The first checkpoint of a spine is kept. -/
def save (s : Checkpoints) (cp : Checkpoint) : Checkpoints :=
  if s.find cp.spine = none then { s with toCpStore := s.writeCoordinatedCheckpoint cp } else s

def step (s : Checkpoints) : CpEvent → Checkpoints
  | .setLast cp =>
    let s := s.save cp
    if cp.changes s.lastCoordCp then { s with toCpStore := s.writeLast cp } else s
  | .setSync cp => { s with sync := some cp }
  | .resetSync | .restart => { s with sync := none }
  | _ => s

end Checkpoints

/-! ## A node answers as if it had no caches -/

namespace CpNode

variable {s : Checkpoints} {n : CpNode}

/-- The node has the checkpoints of `s`, and what is in memory is right. -/
structure Agrees (s : Checkpoints) (n : CpNode) : Prop where
  db : n.db = s.toCpStore
  sync : n.checkpointSyncCache = s.sync
  last : ∀ cp, n.lastCoordinatedCp = some cp → s.lastCoordCp = some cp
  cache : ∀ x ∈ n.checkpointCache, s.coordCp x.1 = some x.2

theorem Agrees.getLast (h : Agrees s n) : n.getLastCoordinatedCheckpoint.1 = s.lastCoordCp ∧
    Agrees s n.getLastCoordinatedCheckpoint.2 := by
  unfold getLastCoordinatedCheckpoint
  cases hmem : n.lastCoordinatedCp with
  | some cp => exact ⟨(h.last cp hmem).symm, h⟩
  | none =>
    rw [h.db]
    cases hdb : s.lastCoordCp with
    | none => exact ⟨rfl, h⟩
    | some cp => exact ⟨rfl, rfl, h.sync, by rintro _ ⟨⟩; exact hdb, h.cache⟩

theorem Agrees.add (h : Agrees s n) {cpSpine : Hash} {cp : Checkpoint}
    (hdb : s.coordCp cpSpine = some cp) : Agrees s (n.cache cpSpine cp) := by
  refine ⟨h.db, h.sync, h.last, fun x hx => ?_⟩
  rcases Lru.mem_of_mem_add hx with rfl | hx
  · exact hdb
  · exact h.cache x hx

theorem Agrees.getCoordinated (h : Agrees s n) (cpSpine : Hash) :
    (n.getCoordinatedCheckpoint cpSpine).1 = s.find cpSpine ∧
      Agrees s (n.getCoordinatedCheckpoint cpSpine).2 := by
  unfold getCoordinatedCheckpoint Checkpoints.find
  rcases Lru.get_cases cpSpine n.checkpointCache with hget | ⟨cp, hmem, hget, hsub⟩
  · rw [hget, h.db]
    cases hdb : s.coordCp cpSpine with
    | none => exact ⟨by simp [getSyncCheckpointCache, h.sync], h⟩
    | some cp => exact ⟨rfl, h.add hdb⟩
  · rw [← Prod.eta (n.checkpointCache.get cpSpine), hget, h.cache _ hmem]
    exact ⟨rfl, h.db, h.sync, h.last, fun x hx => h.cache x (hsub x hx)⟩

theorem Agrees.save (h : Agrees s n) (cp : Checkpoint) :
    Agrees (s.save cp) (n.saveCheckpoint cp) := by
  obtain ⟨hfind, h'⟩ := h.getCoordinated cp.spine
  unfold saveCheckpoint Checkpoints.save
  generalize n.getCoordinatedCheckpoint cp.spine = r at hfind h' ⊢
  obtain ⟨_, n'⟩ := r
  subst hfind
  cases hs : s.find cp.spine with
  | some _ => exact h'
  | none =>
    -- no entry of the cache is for this spine, since the database has none
    have hnone : s.coordCp cp.spine = none := (Option.or_eq_none_iff.1 hs).1
    refine Agrees.add ?_ (update_self ..)
    refine ⟨congrArg (·.writeCoordinatedCheckpoint cp) h'.db, h'.sync, h'.last, fun x hx => ?_⟩
    have hne : x.1 ≠ cp.spine := by
      intro heq
      rw [← heq, h'.cache x hx] at hnone
      cases hnone
    exact (update_of_ne hne _ _).trans (h'.cache x hx)

theorem agrees_start (db : CpStore) : Agrees ⟨db, none⟩ (start db) :=
  ⟨rfl, rfl, by simp [start], fun x hx => (Lru.not_mem_empty x hx).elim⟩

theorem Agrees.step (h : Agrees s n) (e : CpEvent) : Agrees (s.step e) (n.step e) := by
  cases e with
  | getLast => exact h.getLast.2
  | getCoordinated cpSpine => exact (h.getCoordinated cpSpine).2
  | setLast cp =>
    obtain ⟨hlast, h'⟩ := (h.save cp).getLast
    simp only [CpNode.step, setLastCoordinatedCheckpoint, Checkpoints.step, hlast]
    split_ifs
    · exact ⟨congrArg (·.writeLast cp) h'.db, h'.sync, fun _ h => h, h'.cache⟩
    · exact h'
  | setSync cp => exact ⟨h.db, rfl, h.last, h.cache⟩
  | resetSync => exact ⟨h.db, rfl, h.last, h.cache⟩
  | remove hash => exact ⟨h.db, h.sync, h.last, fun x hx => h.cache x (Lru.mem_remove.1 hx).1⟩
  | restart =>
    rw [CpNode.step, h.db]
    exact agrees_start _

theorem agrees_run (db : CpStore) (events : List CpEvent) :
    Agrees (events.foldl Checkpoints.step ⟨db, none⟩) (events.foldl CpNode.step (start db)) := by
  induction events using List.reverseRecOn with
  | nil => exact agrees_start db
  | append_singleton events e ih => simpa using ih.step e

/-- Whatever happened since a node started, it answers what the database and the synchronization
    say, as if there were no caches and had been no restarts. -/
theorem answers_run (db : CpStore) (events : List CpEvent) :
    let n := events.foldl CpNode.step (start db)
    let s := events.foldl Checkpoints.step ⟨db, none⟩
    n.getLastCoordinatedCheckpoint.1 = s.lastCoordCp ∧
      (∀ cpSpine, (n.getCoordinatedCheckpoint cpSpine).1 = s.find cpSpine) ∧
      n.db.epochCp = s.epochCp := by
  intro n s
  have h := agrees_run db events
  exact ⟨h.getLast.1, fun cpSpine => (h.getCoordinated cpSpine).1, congrArg (·.epochCp) h.db⟩

end CpNode

/-! ## The last checkpoint -/

namespace Checkpoints

variable {s : Checkpoints} {events : List CpEvent}

/-- A checkpoint is stored for a spine, unless a synchronization has set one. -/
def Stored (events : List CpEvent) (s : Checkpoints) (cpSpine : Hash) : Prop :=
  (s.coordCp cpSpine).isSome ∨ ∃ cp, .setSync cp ∈ events ∧ cp.spine = cpSpine

/-- The last checkpoint is recorded for its epoch and under its spine. -/
structure Recorded (events : List CpEvent) (s : Checkpoints) : Prop where
  last : ∀ cp, s.lastCoordCp = some cp →
    s.epochCp cp.finEpoch = cp.spine ∧ Stored events s cp.spine
  sync : ∀ cp, s.sync = some cp → .setSync cp ∈ events

theorem Recorded.save (h : Recorded events s) (cp : Checkpoint) :
    Recorded events (s.save cp) ∧ Stored events (s.save cp) cp.spine := by
  rw [Checkpoints.save]
  split_ifs with hfind
  · have hself : Stored events ⟨s.writeCoordinatedCheckpoint cp, s.sync⟩ cp.spine :=
      .inl (by simp [CpStore.writeCoordinatedCheckpoint])
    refine ⟨⟨fun last hlast => (h.last last hlast).imp_right fun hst => ?_, h.sync⟩, hself⟩
    by_cases heq : last.spine = cp.spine
    · exact heq ▸ hself
    · simpa [Stored, CpStore.writeCoordinatedCheckpoint, heq] using hst
  · obtain ⟨cp', hcp'⟩ := Option.ne_none_iff_exists'.1 hfind
    rcases Option.or_eq_some_iff.1 hcp' with hdb | ⟨-, hsync⟩
    · exact ⟨h, .inl (by simp [hdb])⟩
    · obtain ⟨hsync, hspine⟩ := Option.filter_eq_some_iff.1 hsync
      exact ⟨h, .inr ⟨cp', h.sync cp' hsync, by simpa using hspine⟩⟩

theorem Recorded.step (h : Recorded events s) {e : CpEvent} (he : e ∈ events) :
    Recorded events (s.step e) := by
  cases e with
  | setLast cp =>
    obtain ⟨hsave, hstored⟩ := h.save cp
    simp only [Checkpoints.step]
    split_ifs
    · exact ⟨by rintro _ ⟨⟩; exact ⟨update_self .., hstored⟩, hsave.sync⟩
    · exact hsave
  | setSync cp => exact ⟨h.last, by rintro _ ⟨⟩; exact he⟩
  | resetSync | restart => exact ⟨h.last, by rintro _ ⟨⟩⟩
  | _ => exact h

theorem recorded_run (events : List CpEvent) :
    Recorded events (events.foldl step ⟨.empty, none⟩) :=
  List.foldlRecOn events _ (by constructor <;> simp [CpStore.empty]) fun _ h _ he => h.step he

end Checkpoints

/-- Whatever happened since a node started on an empty database, the spine of its last checkpoint is
    recorded for the epoch, and the node finds a checkpoint for that spine, unless a synchronization
    has set one. -/
theorem CpNode.last_run (events : List CpEvent) (cp : Checkpoint) :
    let n := events.foldl CpNode.step (start .empty)
    n.getLastCoordinatedCheckpoint.1 = some cp → n.db.epochCp cp.finEpoch = cp.spine ∧
      ((n.getCoordinatedCheckpoint cp.spine).1.isSome ∨
        ∃ cp', .setSync cp' ∈ events ∧ cp'.spine = cp.spine) := by
  intro n hlast
  have h := agrees_run .empty events
  rw [h.getLast.1] at hlast
  rw [h.db, (h.getCoordinated _).1, Checkpoints.find]
  refine ((Checkpoints.recorded_run events).last cp hlast).imp_right fun hst => ?_
  exact hst.imp_left fun hsome => by simp [hsome]

/-- A checkpoint that a synchronization has set is the last one after a restart; it is recorded for
    its epoch and is not found. -/
theorem CpNode.last_run_restarted :
    let events : List CpEvent :=
      [.setLast ⟨1, 2, 3, 4⟩, .setSync ⟨5, 6, 7, 8⟩, .setLast ⟨5, 6, 7, 8⟩, .restart]
    let n := events.foldl CpNode.step (start .empty)
    (n.getCoordinatedCheckpoint 8).1 = none ∧ n.db.epochCp 6 = 8 ∧
      ((n.getCoordinatedCheckpoint 8).1.isSome ∨ ∃ cp', .setSync cp' ∈ events ∧ cp'.spine = 8) :=
  ⟨rfl, last_run _ ⟨5, 6, 7, 8⟩ rfl⟩

end Gwat
