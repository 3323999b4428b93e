/-
  The creator of blocks (`dag/creator/creator.go`): which pending transactions it takes.
-/
import Gwat.Common
import Gwat.Lib.GoMap

namespace Gwat

open GoLib List

/-! ## Pending transactions -/

/-- `core.IsAddressAssigned` -/
def isAddressAssigned (address : Address) (creators : List Address) (creatorNr : ℕ) : Bool :=
  if creators.length = 0 then false
  else decide (Fin.val address.hash % creators.length = creatorNr)

namespace Creator

section

variable {α : Type} (coinbase : Address) (creators : List Address)

/-- `c.isAddressAssigned` -/
def isAddressAssigned (address : Address) : Bool :=
  if coinbase ∈ creators then Gwat.isAddressAssigned address creators (creators.idxOf coinbase)
  else false

/-- The first loop of `getPending` for one address: it is dropped if it is another creator's. -/
def dropOther (m : GoMap Address (List α)) (address : Address) : GoMap Address (List α) :=
  creators.foldl (fun m creator =>
    if address = creator ∧ creator ≠ coinbase then m.erase address else m) m

/-- The second loop of `getPending` for one entry: it is kept if its address is assigned to the
    creator or is its own. -/
def keepAssigned (m : GoMap Address (List α)) (e : Sigma fun _ : Address => List α) :
    GoMap Address (List α) :=
  let txs := if isAddressAssigned coinbase creators e.1 ∨ e.1 = coinbase then e.2 else []
  if 0 < txs.length then m.insert e.1 txs else m.erase e.1

/-- `c.getPending`, for the transactions that the pool returns as pending.  Each visit of the two
    loops writes its own address only, so their order does not matter. -/
def getPending (pending : GoMap Address (List α)) : GoMap Address (List α) :=
  let pending := pending.keys.foldl (dropOther coinbase creators) pending
  pending.entries.foldl (keepAssigned coinbase creators) pending

end

section

variable {α : Type} {coinbase a : Address} {creators : List Address}

theorem lookup_dropOther (m : GoMap Address (List α)) (address : Address) :
    (dropOther coinbase creators m address).lookup a =
      if a = address ∧ address ∈ creators ∧ address ≠ coinbase then none else m.lookup a := by
  unfold dropOther
  induction creators generalizing m with
  | nil => simp
  | cons creator creators ih =>
    rw [foldl_cons, ih]
    by_cases ha : a = address
    · subst ha
      by_cases hc : a = creator ∧ creator ≠ coinbase
      · obtain ⟨rfl, hne⟩ := hc
        simp [hne]
      · rw [if_neg hc]
        exact if_congr (by grind) rfl rfl
    · simp only [ha, false_and, if_false]
      split_ifs
      · exact AList.lookup_erase_ne ha
      · rfl

theorem lookup_dropOthers (l : List Address) (m : GoMap Address (List α)) :
    (l.foldl (dropOther coinbase creators) m).lookup a =
      if a ∈ l ∧ a ∈ creators ∧ a ≠ coinbase then none else m.lookup a := by
  induction l generalizing m with
  | nil => simp
  | cons address l ih =>
    rw [foldl_cons, ih, lookup_dropOther]
    by_cases ha : a = address
    · subst ha
      by_cases hc : a ∈ creators ∧ a ≠ coinbase <;> simp [hc]
    · simp [ha]

theorem lookup_keepAssigned (l : List (Sigma fun _ : Address => List α)) (hl : l.NodupKeys)
    (m : GoMap Address (List α)) :
    (l.foldl (keepAssigned coinbase creators) m).lookup a =
      match l.dlookup a with
      | none => m.lookup a
      | some txs =>
        if (isAddressAssigned coinbase creators a ∨ a = coinbase) ∧ 0 < txs.length then some txs
        else none := by
  induction l generalizing m with
  | nil => rfl
  | cons e l ih =>
    obtain ⟨address, txs⟩ := e
    obtain ⟨hnew, hl⟩ := nodupKeys_cons.1 hl
    rw [foldl_cons, ih hl]
    by_cases ha : a = address
    · subst ha
      rw [dlookup_eq_none.2 hnew, dlookup_cons_eq]
      by_cases hown : isAddressAssigned coinbase creators a = true ∨ a = coinbase
      · by_cases hlen : 0 < txs.length <;> simp [keepAssigned, hown, hlen]
      · simp [keepAssigned, hown]
    · rw [dlookup_cons_ne _ _ ha]
      have hother : (keepAssigned coinbase creators m ⟨address, txs⟩).lookup a = m.lookup a := by
        unfold keepAssigned
        dsimp only
        split_ifs
        all_goals first | exact AList.lookup_insert_ne ha | exact AList.lookup_erase_ne ha
      rw [hother]

/-- What `getPending` leaves of an address. -/
theorem lookup_getPending (pending : GoMap Address (List α)) :
    (getPending coinbase creators pending).lookup a =
      if a ∈ creators ∧ a ≠ coinbase then none
      else (pending.lookup a).filter fun txs =>
        (isAddressAssigned coinbase creators a ∨ a = coinbase) ∧ 0 < txs.length := by
  have hfirst : (pending.keys.foldl (dropOther coinbase creators) pending).lookup a =
      if a ∈ creators ∧ a ≠ coinbase then none else pending.lookup a := by
    rw [lookup_dropOthers]
    by_cases hk : a ∈ pending.keys
    · simp [hk]
    · have hnone : pending.lookup a = none :=
        AList.lookup_eq_none.2 fun h => hk (AList.mem_keys.1 h)
      simp [hk, hnone]
  unfold getPending
  rw [lookup_keepAssigned _ (AList.nodupKeys _)]
  change (match (pending.keys.foldl (dropOther coinbase creators) pending).lookup a with
    | none => (pending.keys.foldl (dropOther coinbase creators) pending).lookup a
    | some txs => _) = _
  rw [hfirst]
  split_ifs with h
  · rfl
  · cases pending.lookup a with
    | none => rfl
    | some txs => simp [Option.filter]

theorem isAddressAssigned_iff (hc : coinbase ∈ creators) :
    isAddressAssigned coinbase creators a = true ↔
      creators.idxOf coinbase = Fin.val a.hash % creators.length := by
  have hlen : creators.length ≠ 0 := fun h => not_mem_nil (length_eq_zero_iff.1 h ▸ hc)
  rw [isAddressAssigned, if_pos hc, Gwat.isAddressAssigned, if_neg hlen, decide_eq_true_eq, eq_comm]

end

/-- The transactions of every pending sender are selected by exactly one creator of the slot, and
    a creator's own by that creator. -/
theorem one_responsible_creator {α : Type} (creators : List Address) (hn : creators.Nodup)
    (hne : creators ≠ []) (pending : GoMap Address (List α)) (sender : Address) (txs : List α)
    (hp : pending.lookup sender = some txs) (ht : txs ≠ []) :
    ∃ c ∈ creators, (getPending c creators pending).lookup sender = some txs ∧
      (∀ c' ∈ creators, c' ≠ c → (getPending c' creators pending).lookup sender = none) ∧
      (sender ∈ creators → c = sender) := by
  have hpos : 0 < txs.length := length_pos_iff.2 ht
  simp only [lookup_getPending, hp]
  by_cases hs : sender ∈ creators
  · refine ⟨sender, hs, ?_, fun c' _ hne' => if_pos ⟨hs, hne'.symm⟩, fun _ => rfl⟩
    simp [Option.filter, hpos]
  · -- the creator at the position of the sender
    have hlt : Fin.val sender.hash % creators.length < creators.length :=
      Nat.mod_lt _ (length_pos_iff.2 hne)
    have hmem := getElem_mem hlt
    have hassigned : ∀ c ∈ creators, isAddressAssigned c creators sender = true ↔
        c = creators[Fin.val sender.hash % creators.length] := by
      intro c hc
      rw [isAddressAssigned_iff hc]
      constructor
      · intro hidx
        rw [← getElem_idxOf (idxOf_lt_length_iff.2 hc)]
        simp only [hidx]
      · rintro rfl
        exact hn.idxOf_getElem _ hlt
    refine ⟨_, hmem, ?_, fun c' hc' hne' => ?_, fun h => absurd h hs⟩
    · simp [hs, Option.filter, (hassigned _ hmem).2 rfl, hpos]
    · have hno : ¬ (isAddressAssigned c' creators sender = true ∨ sender = c') := by
        rintro (h | rfl)
        · exact hne' ((hassigned c' hc').1 h)
        · exact hs hc'
      simp [hs, Option.filter, hno]

theorem one_responsible_creator_two :
    ∃ c ∈ [(5 : Address), 6],
      (getPending c [5, 6] (AList.singleton 7 [true])).lookup 7 = some [true] ∧
      (∀ c' ∈ [(5 : Address), 6], c' ≠ c →
        (getPending c' [5, 6] (AList.singleton 7 [true])).lookup 7 = none) ∧
      ((7 : Address) ∈ [(5 : Address), 6] → c = 7) :=
  one_responsible_creator _ (by decide) (by decide) _ 7 _ rfl (by decide)

end Creator

end Gwat
