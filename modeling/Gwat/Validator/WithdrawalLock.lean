/-
  The lock of a requested withdrawal: the transaction of a withdrawal is kept in the record
  of the validator until its balance is updated, and deposits and withdrawals look it up.
-/
import Gwat.Lib.Lease
import Gwat.Validator.RecordWrites

namespace Gwat

open GoLib Processor ValOp

variable {s s' : StateDB} {valAddr a : Address} {tx : Hash} {v' : Validator}

/-- What an operation does with the lock of the validator `a`. -/
def ValOp.leaseKind (a : Address) : ValOp → LeaseKind
  | .withdrawal op => if op.creatorAddress = a then .acquire else .idle
  | .deposit op => if op.creatorAddress = a then .use else .idle
  | .exit _ => .idle
  | .sync op => if op.opType = .updateBalance ∧ op.creator = a then .release else .idle

/-- The stored record of the account tracks the pending withdrawal `tx`. -/
def Locked (s : StateDB) (a : Address) (tx : Hash) : Prop :=
  ∃ v, getValidator .binary s a = .ok v ∧ ver1 ≤ v.version ∧ v.getWithdrawalTx = some tx

/-- The stored record of the account has no pending withdrawal. -/
def NoPending (s : StateDB) (a : Address) : Prop :=
  ∃ v, getValidator .binary s a = .ok v ∧ v.getWithdrawalTx = none

/-- Every record lies in the account of its validator. -/
def Home (valAddr : Address) (s : StateDB) : Prop :=
  ∀ a v, a ≠ valAddr → getValidator .binary s a = .ok v → v.address = a

/-- The accounts hold the same records in both states. -/
def SameRecords (s s' : StateDB) : Prop :=
  ∀ a v, getValidator .binary s' a = .ok v ↔ getValidator .binary s a = .ok v

theorem SameCode.sameRecords (h : SameCode s s') : SameRecords s s' :=
  fun a v => by rw [getValidator_congr (h a)]

theorem Locked.congr (h : Locked s a tx)
    (hsame : ∀ v, getValidator .binary s' a = .ok v ↔ getValidator .binary s a = .ok v) :
    Locked s' a tx := by
  obtain ⟨v, hv, hrest⟩ := h
  exact ⟨v, (hsame v).2 hv, hrest⟩

theorem Home.congr (h : Home valAddr s) (hsame : SameRecords s s') : Home valAddr s' :=
  fun a v ha hv => h a v ha ((hsame a v).1 hv)

theorem Home.writes (h : Home valAddr s) (hfits : v'.Fits)
    (hwrites : WritesRecord valAddr s s' v') : Home valAddr s' := by
  intro a v ha hv
  by_cases hself : a = v'.address
  · subst hself
    rw [hwrites.getValidator_self hfits ha] at hv
    cases hv
    rfl
  · exact h a v ha ((getValidator_congr (hwrites.getCode_of_ne ha hself)).symm.trans hv)

/-! ## The pending withdrawal of a record -/

namespace Validator

variable {v v' : Validator}

theorem ne_noVer (h : ver1 ≤ v.version) : v.version ≠ noVer := by
  intro h0
  rw [h0] at h
  exact absurd h (by decide)

theorem getWithdrawalTx_of_ver1 (h : ver1 ≤ v.version) :
    v.getWithdrawalTx = if v.withdrawalTx = some 0 then none else v.withdrawalTx := by
  simp [getWithdrawalTx, trackedTx, ne_noVer h]

theorem getWithdrawalTx_normal : v.normal.getWithdrawalTx = v.getWithdrawalTx := by
  show v.normal.trackedTx v.getWithdrawalTx = v.getWithdrawalTx
  rw [trackedTx_congr (show v.normal.version = v.version from rfl), getWithdrawalTx]
  unfold trackedTx
  split_ifs <;> simp_all

theorem getWithdrawalTx_congr (h : ver1 ≤ v.version) (h' : ver1 ≤ v'.version)
    (htx : v'.withdrawalTx = v.withdrawalTx) : v'.getWithdrawalTx = v.getWithdrawalTx := by
  rw [getWithdrawalTx_of_ver1 h, getWithdrawalTx_of_ver1 h', htx]

theorem getWithdrawalTx_set (h : ver1 ≤ v.version) {tx : Option Hash} (hne : tx ≠ some 0) :
    (v.setWithdrawalTx tx).getWithdrawalTx = tx := by
  simp [getWithdrawalTx, setWithdrawalTx, trackedTx, ne_noVer h, hne]

end Validator

variable {s s' : StateDB} {p : Processor} {caller toAddr : Address} {value : ℤ} {txHash : Hash}
  {ret : Bytes}

theorem WritesRecord.locked (h : WritesRecord valAddr s s' v') (hfits : v'.Fits)
    (hne : v'.address ≠ valAddr) (hver : ver1 ≤ v'.version) (htx : v'.getWithdrawalTx = some tx) :
    Locked s' v'.address tx :=
  ⟨v'.normal, h.getValidator_self hfits hne, hver, Validator.getWithdrawalTx_normal.trans htx⟩

@[simp] theorem Processor.version_depositedRecord (v : Validator) :
    (p.depositedRecord v caller value txHash).version =
      (p.updateValidatorVersionBySlot v).version := by
  simp only [depositedRecord, Validator.addStake, Validator.addDepositTxs]
  split_ifs <;> rfl

namespace OpStep

variable {v v' : Validator}

/-- The pending withdrawal after an operation. -/
def pendingAfter (st : OpStep) (old : Option Hash) : Option Hash :=
  match st.op with
  | .withdrawal _ => some st.txHash
  | .sync op => if op.opType = .updateBalance then none else old
  | _ => old

/-- The operation has an encoding that fits and an amount that is not negative. -/
def Encodes : ValOp → Prop
  | .deposit op => (DelegatingStakeData.marshalBinary op.delegatingStake).length < 2 ^ 32
  | .sync op => ∀ amount ∈ op.amount, 0 ≤ amount
  | _ => True

instance (op : ValOp) : Decidable (Encodes op) :=
  match op with
  | .deposit _ => inferInstanceAs (Decidable (_ < _))
  | .sync _ => inferInstanceAs (Decidable (∀ _ ∈ _, _))
  | .withdrawal _ | .exit _ => inferInstanceAs (Decidable True)

/-- What is known of an operation besides that it is accepted: it runs after the fork of the
    tracking, its transaction has a hash, and its record has room for one more stake. -/
structure Tracked (valAddr : Address) (st : OpStep) : Prop where
  codec : st.p.codec = .binary
  tracking : st.p.blockchain.config.isForkSlotValOpTracking st.p.ctx.slot
  account : st.p.validatorsStateAddress = valAddr
  tx : st.txHash ≠ 0
  creator_ne : st.op.creator ≠ valAddr
  small : ∀ v, getValidator .binary st.before st.op.creator = .ok v → v.Small
  encodes : Encodes st.op

/-- The payout of an operation follows the rules of a delegating validator. -/
def PaysShares (st : OpStep) : Prop :=
  ∃ v, getValidator .binary st.before st.op.creator = .ok v ∧ st.p.PaysShares v

/-- An accepted operation writes no record: a payout by the rules of a delegating validator,
    or a sync operation without handler. -/
def WritesNothing (st : OpStep) : Prop :=
  ∃ op, st.op = .sync op ∧
    (op.opType = .updateBalance ∧ st.PaysShares ∨ ∃ code, op.opType = .other code)

/-- The operation writes a record of its validator with the pending withdrawal it leaves. -/
def WritesPending (valAddr : Address) (st : OpStep) (v' : Validator) : Prop :=
  v'.address = st.op.creator ∧ v'.Fits ∧ WritesRecord valAddr st.before st.after v' ∧
    ver1 ≤ v'.version ∧
    ∃ old, (∀ v, getValidator .binary st.before st.op.creator = .ok v → ver1 ≤ v.version →
      v.getWithdrawalTx = old) ∧ v'.getWithdrawalTx = st.pendingAfter old

theorem WritesPending.of_rewrites {st : OpStep} (h : Rewrites valAddr st.before st.after v v')
    (haddr : v'.address = st.op.creator) (hver : ver1 ≤ v'.version) {old : Option Hash}
    (hold : ver1 ≤ v.version → v.getWithdrawalTx = old)
    (hnew : v'.getWithdrawalTx = st.pendingAfter old) : st.WritesPending valAddr v' := by
  refine ⟨haddr, h.fits, h.writes, hver, old, fun w hw hverw => ?_, hnew⟩
  rw [← haddr, h.read] at hw
  cases hw
  exact hold hverw

section

variable {valAddr : Address} {st : OpStep}
variable {a : Address} {tx : Hash} {v v' : Validator}

/-- After the fork every record is written with the version that tracks operations. -/
theorem Tracked.version (ht : st.Tracked valAddr) (v : Validator) :
    (st.p.updateValidatorVersionBySlot v).version = ver1 := if_pos ht.tracking

theorem WritesPending.of_same (h : Rewrites valAddr st.before st.after v v')
    (haddr : v'.address = st.op.creator) (hver : v'.version = ver1)
    (htx : v'.withdrawalTx = v.withdrawalTx) (hkeep : ∀ old, st.pendingAfter old = old) :
    st.WritesPending valAddr v' := by
  have hver' : ver1 ≤ v'.version := hver.symm ▸ UInt16.le_refl _
  have hold : ver1 ≤ v.version → v.getWithdrawalTx = v'.getWithdrawalTx :=
    fun hv => (Validator.getWithdrawalTx_congr hv hver' htx).symm
  exact .of_rewrites h haddr hver' hold (hkeep _).symm

/-- What an accepted operation does: it writes the record of its validator with the pending
    withdrawal it leaves, or nothing. -/
theorem effect (ht : st.Tracked valAddr) (hhome : Home valAddr st.before) (h : st.Accepted) :
    (∃ v', st.WritesPending valAddr v') ∧ ¬ st.WritesNothing ∨
      st.WritesNothing ∧ SameCode st.before st.after := by
  obtain ⟨p, caller, toAddr, value, txHash, op, s, s'⟩ := st
  have hversion := ht.version
  obtain ⟨hcodec, hfork, rfl, htx, hne, hsmall, henc⟩ := ht
  have hown := fun v => hhome op.creator v hne
  have hrec : RecordInPlace s op.creator := fun v hv => ⟨hown v hv, hsmall v hv⟩
  obtain ⟨ret, h⟩ := h
  cases op with
  | deposit op =>
    refine .inl ⟨?_, by simp [WritesNothing]⟩
    obtain ⟨v, hv, hfits, hwrites, -⟩ := validatorDeposit_writes hcodec hrec henc h
    have hver : (p.depositedRecord v caller value txHash).version = ver1 := by
      rw [version_depositedRecord]
      exact hversion v
    have hsame : (p.depositedRecord v caller value txHash).withdrawalTx = v.withdrawalTx := by
      rw [depositedRecord_eq]
    refine ⟨p.depositedRecord v caller value txHash, ?_⟩
    rcases depositRecord_eq_ok hv with ⟨hno, hfresh⟩ | ⟨hget, -⟩
    · have haddr : v.address = op.creatorAddress := by rw [freshRecord_eq_ok hfresh]; rfl
      rw [hcodec] at hno
      exact ⟨by rwa [address_depositedRecord], hfits, hwrites, hver.symm ▸ UInt16.le_refl _,
        _, fun w hw => absurd hw (hno w), rfl⟩
    · rw [hcodec] at hget
      have haddr := hown v hget
      refine .of_same ⟨?_, hfits, hwrites⟩ (by rwa [address_depositedRecord]) hver hsame
        fun _ => rfl
      rw [address_depositedRecord, haddr]
      exact hget
  | exit op =>
    refine .inl ⟨?_, by simp [WritesNothing]⟩
    obtain ⟨v, haddr, hrewrites⟩ := validatorExit_writes hcodec hrec h
    exact ⟨_, .of_same hrewrites haddr (hversion v) rfl fun _ => rfl⟩
  | withdrawal op =>
    refine .inl ⟨?_, by simp [WritesNothing]⟩
    obtain ⟨v, haddr, hrewrites⟩ := validatorWithdrawal_writes hcodec hfork hrec h
    have hver : ver1 ≤ (p.updateValidatorVersionBySlot v).version :=
      (hversion v).symm ▸ UInt16.le_refl _
    exact ⟨_, .of_rewrites hrewrites haddr hver (fun _ => rfl)
      (Validator.getWithdrawalTx_set hver (by simpa using htx))⟩
  | sync op =>
    rcases syncOpProcessing_eq_ok h with ⟨htype, h⟩ | ⟨htype, h⟩ | ⟨htype, h⟩ |
      ⟨⟨code, htype⟩, hsame⟩
    · obtain ⟨v, era, haddr, -, hrewrites⟩ :=
        validatorActivate_writes hcodec hfork hrec h
      exact .inl ⟨⟨_, .of_same hrewrites haddr (hversion v) rfl (by simp [pendingAfter, htype])⟩,
        by simp [WritesNothing, htype]⟩
    · obtain ⟨v, era, -, -, -, haddr, hrewrites⟩ :=
        validatorDeactivate_writes hcodec hrec h
      exact .inl ⟨⟨_, .of_same hrewrites haddr (hversion v) rfl (by simp [pendingAfter, htype])⟩,
        by simp [WritesNothing, htype]⟩
    · obtain ⟨v, hv, hcases⟩ :=
        validatorUpdateBalance_writes hcodec hfork hrec henc h
      rcases hcases with ⟨hno, stake, hrewrites⟩ | ⟨hshares, hsame⟩
      · have hver : ver1 ≤ (p.updateValidatorVersionBySlot v).version :=
          (hversion v).symm ▸ UInt16.le_refl _
        have hnone : ((p.updateValidatorVersionBySlot v).setWithdrawalTx none).getWithdrawalTx =
            none := Validator.getWithdrawalTx_set hver (by simp)
        refine .inl ⟨⟨_, .of_rewrites hrewrites (hown v hv) hver (fun _ => rfl) (hnone.trans ?_)⟩, ?_⟩
        · simp [pendingAfter, htype]
        · have hv : getValidator .binary s (ValOp.sync op).creator = .ok v := hv
          simpa [WritesNothing, htype, OpStep.PaysShares, hv] using hno
      · exact .inr ⟨⟨op, rfl, .inl ⟨htype, v, hv, hshares⟩⟩, hsame⟩
    · refine .inr ⟨⟨op, rfl, .inr ⟨code, htype⟩⟩, fun a => ?_⟩
      have hs : s' = s := hsame
      rw [hs]

theorem home_after (ht : st.Tracked valAddr) (hhome : Home valAddr st.before) (h : st.Accepted) :
    Home valAddr st.after := by
  obtain ⟨⟨v', -, hfits, hwrites, -⟩, -⟩ | ⟨-, hsame⟩ := effect ht hhome h
  · exact hhome.writes hfits hwrites
  · exact hhome.congr hsame.sameRecords

theorem locked_of_acquire (ht : st.Tracked valAddr) (hhome : Home valAddr st.before)
    (h : st.Accepted) (hkind : st.op.leaseKind a = .acquire) : Locked st.after a st.txHash := by
  have hcreator : st.op.creator = a ∧ ∀ old, st.pendingAfter old = some st.txHash := by
    cases hop : st.op with
    | withdrawal op =>
      rw [hop, leaseKind] at hkind
      split_ifs at hkind with ha
      exact ⟨ha, fun old => by rw [pendingAfter, hop]⟩
    | exit op => simp [hop, leaseKind] at hkind
    | deposit op | sync op => rw [hop, leaseKind] at hkind; split_ifs at hkind
  obtain ⟨rfl, hpending⟩ := hcreator
  obtain ⟨⟨v', haddr, hfits, hwrites, hver, old, -, hnew⟩, -⟩ | ⟨⟨op, hop, -⟩, -⟩ :=
    effect ht hhome h
  · have hlocked := hwrites.locked hfits (haddr.symm ▸ ht.creator_ne) hver
      (hnew.trans (hpending old))
    rwa [haddr] at hlocked
  · rw [hop, leaseKind] at hkind
    split_ifs at hkind

theorem locked_after (ht : st.Tracked valAddr) (hhome : Home valAddr st.before) (h : st.Accepted)
    (ha : a ≠ valAddr) (hacq : st.op.leaseKind a ≠ .acquire) (hrel : st.op.leaseKind a ≠ .release)
    (hlocked : Locked st.before a tx) : Locked st.after a tx := by
  obtain ⟨⟨v', haddr, hfits, hwrites, hver, old, hold, hnew⟩, -⟩ | ⟨-, hsame⟩ := effect ht hhome h
  · by_cases hself : a = st.op.creator
    · subst hself
      obtain ⟨v, hv, hverv, htx⟩ := hlocked
      have hkeep : st.pendingAfter old = old := by
        cases hop : st.op with
        | withdrawal op => simp [hop, leaseKind, creator] at hacq
        | deposit op | exit op => simp [pendingAfter, hop]
        | sync op =>
          have htype : op.opType ≠ .updateBalance := by
            simpa [hop, leaseKind, creator] using hrel
          simp [pendingAfter, hop, htype]
      have htx' : v'.getWithdrawalTx = some tx := by rw [hnew, hkeep, ← hold v hv hverv, htx]
      have hlocked := hwrites.locked hfits (haddr.symm ▸ ha) hver htx'
      rwa [haddr] at hlocked
    · have hcode := hwrites.getCode_of_ne ha (haddr.symm ▸ hself)
      exact hlocked.congr fun v => by rw [getValidator_congr hcode]
  · exact hlocked.congr (hsame.sameRecords a)

/-- A payout leaves no pending withdrawal, unless it follows the rules of a delegating
    validator: then a pending withdrawal stays. -/
theorem released_iff {op : SyncOp} (ht : st.Tracked valAddr) (hhome : Home valAddr st.before)
    (h : st.Accepted) (hop : st.op = .sync op) (htype : op.opType = .updateBalance) :
    NoPending st.after op.creator ↔ (st.PaysShares → NoPending st.before op.creator) := by
  have hcreator : st.op.creator = op.creator := by rw [hop]; rfl
  obtain ⟨⟨v', haddr, hfits, hwrites, hver, old, -, hnew⟩, hno⟩ | ⟨⟨op', hop', hcase⟩, hsame⟩ :=
    effect ht hhome h
  · have hnone : v'.getWithdrawalTx = none := by rw [hnew, pendingAfter, hop]; exact if_pos htype
    have hread := hwrites.getValidator_self hfits (haddr.symm ▸ ht.creator_ne)
    rw [haddr, hcreator] at hread
    refine iff_of_true ⟨_, hread, ?_⟩ fun hshares => ?_
    · rw [Validator.getWithdrawalTx_normal, hnone]
    · exact absurd ⟨op, hop, .inl ⟨htype, hshares⟩⟩ hno
  · obtain rfl : op = op' := ValOp.sync.inj (hop.symm.trans hop')
    have hshares : st.PaysShares := by simpa [htype] using hcase
    rw [NoPending, getValidator_congr (hsame op.creator)]
    exact ⟨fun hafter _ => hafter, fun hbefore => hbefore hshares⟩

theorem prevOpCheck_of_locked (hcodec : st.p.codec = .binary) (h : st.Accepted)
    (hkind : (st.op.leaseKind a).Waits) (hlocked : Locked st.before a tx) :
    st.p.prevOpCheck (some tx) = .ok () := by
  obtain ⟨v, hv, hver, htx⟩ := hlocked
  obtain ⟨ret, h⟩ := h
  cases hop : st.op with
  | withdrawal op =>
    rw [hop] at h hkind
    obtain rfl : op.creatorAddress = a := by
      by_contra hne
      simp [leaseKind, LeaseKind.Waits, hne] at hkind
    obtain ⟨w, -, -, -, -, hw, hcheck, -⟩ := validatorWithdrawal_eq_ok h
    rw [hcodec, hv] at hw
    cases hw
    exact htx ▸ hcheck hver
  | deposit op =>
    rw [hop] at h hkind
    obtain rfl : op.creatorAddress = a := by
      by_contra hne
      simp [leaseKind, LeaseKind.Waits, hne] at hkind
    obtain ⟨-, -, w, -, -, -, hw, hcheck, -⟩ := validatorDeposit_eq_ok h
    rcases depositRecord_eq_ok hw with ⟨hno, -⟩ | ⟨hget, -⟩
    · exact absurd (hcodec ▸ hv) (hno v)
    · rw [hcodec, hv] at hget
      cases hget
      exact htx ▸ hcheck hver
  | exit op => simp [hop, leaseKind, LeaseKind.Waits] at hkind
  | sync op =>
    simp only [hop, leaseKind, LeaseKind.Waits] at hkind
    split_ifs at hkind <;> simp at hkind

end

end OpStep

end Gwat
