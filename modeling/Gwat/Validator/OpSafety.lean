/-
  Which bytes can be decoded as a validator operation without a panic.
-/
import Gwat.Validator.DepositRules

namespace Gwat

open GoLib GoLib.Rlp DelegatingStakeRules List Option DepositOp SyncOp

section
variable {α : Type} {hi : ℕ}

@[simp] theorem avoids_orPanic_iff {x : Option α} : Avoids .panic (orPanic x) ↔ x.isSome := by
  cases x <;> simp

@[simp] theorem avoids_slice {b : Bytes} {lo : ℕ} :
    Avoids .panic (slice b lo hi) ↔ hi ≤ b.length := by
  simp [slice]

theorem slice_of_le {b : Bytes} (lo : ℕ) (h : hi ≤ b.length) :
    slice b lo hi = .ok ((b.drop lo).take (hi - lo)) := if_pos h

end

/-! ## Roles and shares -/

/-- The bits of a role are those of the first `n` addresses. -/
def RolesIn (n : ℕ) (bits : Bytes) : Prop := ∀ i ∈ bitIndices bits, i < n

theorem isSome_roles {addrs : List Address} {bits : Bytes} :
    (roles addrs bits).isSome ↔ RolesIn addrs.length bits := by
  rw [roles, isSome_mapM, RolesIn]
  simp

/-- Each address has a share of the profit and one of the stake. -/
structure Covered (r : DelegatingStakeRules) : Prop where
  profit : r.addrs.length ≤ r.profitShares.length
  stake : r.addrs.length ≤ r.stakeShares.length

namespace DelegatingStakeRules

variable {r c : DelegatingStakeRules}
variable {n : ℕ} {shares : List UInt8} {role : Option (List Address)} {e : ValError} {u : Unit}

theorem isSome_copyShares : (copyShares n shares).isSome ↔ n ≤ shares.length := by
  unfold copyShares
  split_ifs with h
  · simpa using h
  · simpa using h

theorem isSome_copy : r.copy.isSome ↔ Covered r := by
  have hprofit := @isSome_copyShares r.addrs.length r.profitShares
  have hstake := @isSome_copyShares r.addrs.length r.stakeShares
  rw [copy]
  constructor
  · cases hp : copyShares r.addrs.length r.profitShares <;>
      cases hs : copyShares r.addrs.length r.stakeShares <;> simp_all
    exact ⟨hprofit, hstake⟩
  · intro h
    obtain ⟨p, hp⟩ := Option.isSome_iff_exists.1 (hprofit.2 h.profit)
    obtain ⟨q, hq⟩ := Option.isSome_iff_exists.1 (hstake.2 h.stake)
    simp [hp, hq]

theorem copyRoles_copyRoles (n : ℕ) (bits : Bytes) :
    copyRoles n (copyRoles n bits) = copyRoles n bits := by
  have hlen := length_copyOver (newBitlist n) bits
  by_cases hbits : bits = []
  · simp [copyRoles, hbits]
  · by_cases hcopy : copyOver (newBitlist n) bits = []
    · simp [copyRoles, hbits, hcopy]
    · rw [copyRoles, copyRoles, if_neg hbits, if_neg hcopy, copyOver,
        drop_eq_nil_of_le hlen.ge, append_nil, ← hlen, take_length]

theorem copy_copy (h : r.copy = some c) : c.copy = some c := by
  obtain ⟨profitShares, hprofit, h⟩ := Option.bind_eq_some_iff.1 h
  obtain ⟨stakeShares, hstake, h⟩ := Option.bind_eq_some_iff.1 h
  obtain rfl := Option.some.inj h
  simp [copy, copyShares_self (copyShares_eq_some hprofit),
    copyShares_self (copyShares_eq_some hstake), copyRoles_copyRoles]

/-- The shares and the roles can be queried. -/
structure Queryable (r : DelegatingStakeRules) : Prop where
  profit : r.profitShare.isSome
  stake : r.stakeShare.isSome
  exit : r.exit.isSome
  withdrawal : r.withdrawal.isSome

theorem isSome_profitShare (h : Fitted r) : r.profitShare.isSome := by
  rw [profitShare, shareMap_eq h.profit.ge, isSome_some]

theorem isSome_stakeShare (h : Fitted r) : r.stakeShare.isSome := by
  rw [stakeShare, shareMap_eq h.stake.ge, isSome_some]

/-! ## The checks of the rules -/

theorem avoids_roleCheck (he : e ≠ .panic) :
    Avoids .panic (do let l ← orPanic role; if l.isEmpty then .error e else .ok () :
      Except ValError Unit) ↔ role.isSome := by
  simp [he]

/-- The roles that `Validate` looks up are those of addresses: it does so only if the shares
    total 100 percent, and looks up who may withdraw only if someone may exit. -/
def RolesChecked (r : DelegatingStakeRules) : Prop :=
  total r.profitShares = 100 → total r.stakeShares = 100 →
    RolesIn r.addrs.length r.exitBits ∧
      (r.validateExit = .ok () → RolesIn r.addrs.length r.withdrawalBits)

theorem avoids_validate : Avoids .panic r.validate ↔ r.RolesChecked := by
  have hexit : Avoids .panic r.validateExit ↔ RolesIn r.addrs.length r.exitBits :=
    (avoids_roleCheck (by decide)).trans isSome_roles
  have hwithdrawal : Avoids .panic r.validateWithdrawal ↔ RolesIn r.addrs.length r.withdrawalBits :=
    (avoids_roleCheck (by decide)).trans isSome_roles
  simp [validate, validateProfitShare, validateStakeShare, hexit, hwithdrawal, RolesChecked]

theorem isSome_of_roleCheck
    (h : (do let l ← orPanic role; if l.isEmpty then .error e else .ok ()) = .ok u) :
    role.isSome := by
  obtain ⟨l, rfl, -⟩ := granted_of_check h
  rfl

theorem isSome_of_validate (h : r.validate = .ok u) : r.exit.isSome ∧ r.withdrawal.isSome := by
  obtain ⟨_, -, h⟩ := bind_eq_ok.1 h
  obtain ⟨_, -, h⟩ := bind_eq_ok.1 h
  obtain ⟨_, hexit, hwithdrawal⟩ := bind_eq_ok.1 h
  exact ⟨isSome_of_roleCheck hexit, isSome_of_roleCheck hwithdrawal⟩

end DelegatingStakeRules

namespace DelegatingStakeData

variable {d c : DelegatingStakeData}

section
variable {trialPeriod : UInt64} {m : GoMap Address UInt8} {role : Option (List Address)} {t : ℕ}
  {e : ValError} {rest : Except ValError Unit}

/-- A check of the trial rules, with the shares `m` that total `t`. -/
def trialCheck (trialPeriod : UInt64) (m : GoMap Address UInt8) (role : Option (List Address))
    (t : ℕ) (e : ValError) (rest : Except ValError Unit) : Except ValError Unit := do
  let grants ← trialGrants trialPeriod (some m) role
  checkIf grants do
    failIf (t ≠ 100) e
    rest

theorem trialGrants_of_shared (h : 0 < trialPeriod ∧ 0 < m.keys.length) :
    trialGrants trialPeriod (some m) role = .ok true := by
  rw [trialGrants, trialShares, if_pos h.1]
  simp [h.2]

theorem trialGrants_of_not_shared (h : ¬ (0 < trialPeriod ∧ 0 < m.keys.length)) :
    trialGrants trialPeriod (some m) role =
      (fun l => decide (0 < l.length)) <$> orPanic role := by
  rw [trialGrants, trialShares]
  split_ifs with hperiod
  · have hkeys : ¬ 0 < m.keys.length := fun hk => h ⟨hperiod, hk⟩
    simp [hkeys]
  · rfl

/-- The role is looked up unless there are shares in a trial period that do not total 100. -/
theorem avoids_trialCheck (he : e ≠ .panic) (hrest : Avoids .panic rest ↔ role.isSome) :
    Avoids .panic (trialCheck trialPeriod m role t e rest) ↔
      role.isSome ∨ (0 < trialPeriod ∧ 0 < m.keys.length) ∧ t ≠ 100 := by
  rw [trialCheck]
  by_cases hshared : 0 < trialPeriod ∧ 0 < m.keys.length
  · simp [trialGrants_of_shared hshared, he, hrest, hshared, or_iff_not_imp_right]
  · rw [trialGrants_of_not_shared hshared]
    cases role with
    | none => simp [hshared]
    | some l =>
      have hok : Avoids .panic rest := hrest.2 rfl
      simp [hok, he]

theorem isSome_of_trialCheck {u : Unit} (h : trialCheck trialPeriod m role t e rest = .ok u)
    (hrest : rest = .ok () → role.isSome) : role.isSome := by
  obtain ⟨grants, hgrants, h⟩ := bind_eq_ok.1 h
  by_cases hshared : 0 < trialPeriod ∧ 0 < m.keys.length
  · obtain rfl : true = grants :=
      Except.ok.inj ((trialGrants_of_shared hshared).symm.trans hgrants)
    obtain ⟨_, -, h⟩ := bind_eq_ok.1 (checkIf_eq_ok.1 h rfl)
    exact hrest h
  · rw [trialGrants_of_not_shared hshared] at hgrants
    cases role with
    | none => cases hgrants
    | some l => rfl

end

variable {m : GoMap Address UInt8}

theorem checkTrialWithdrawal_eq (h : d.trialRules.profitShare = some m) :
    d.checkTrialWithdrawal = trialCheck d.trialPeriod m d.trialRules.withdrawal
      (total d.trialRules.profitShares) .badProfitShare d.trialRules.validateWithdrawal := by
  rw [checkTrialWithdrawal, h]
  rfl

theorem checkTrialExit_eq (h : d.trialRules.stakeShare = some m) :
    d.checkTrialExit = trialCheck d.trialPeriod m d.trialRules.exit
      (total d.trialRules.stakeShares) .badStakeShare (do
        d.trialRules.validateExit
        d.trialRules.validateProfitShare) := by
  rw [checkTrialExit, h]
  rfl

/-- The roles that the checks of the trial rules look up are those of addresses.  A role is
    not looked up if the shares are refused before. -/
structure TrialRolesChecked (d : DelegatingStakeData) : Prop where
  withdrawal : RolesIn d.trialRules.addrs.length d.trialRules.withdrawalBits ∨
    (0 < d.trialPeriod ∧ Shared d.trialRules.profitShare) ∧ total d.trialRules.profitShares ≠ 100
  exit : d.checkTrialWithdrawal = .ok () →
    RolesIn d.trialRules.addrs.length d.trialRules.exitBits ∨
      (0 < d.trialPeriod ∧ Shared d.trialRules.stakeShare) ∧ total d.trialRules.stakeShares ≠ 100

theorem shared_some : Shared (some m) ↔ 0 < m.keys.length := by
  simp [Shared]

theorem avoids_trialChecks (hfit : Fitted d.trialRules) : (Avoids .panic d.checkTrialWithdrawal ∧
      (d.checkTrialWithdrawal = .ok () → Avoids .panic d.checkTrialExit)) ↔
      d.TrialRolesChecked := by
  obtain ⟨mp, hmp⟩ := Option.isSome_iff_exists.1 (isSome_profitShare hfit)
  obtain ⟨ms, hms⟩ := Option.isSome_iff_exists.1 (isSome_stakeShare hfit)
  have hwithdrawal : Avoids .panic d.checkTrialWithdrawal ↔
      RolesIn d.trialRules.addrs.length d.trialRules.withdrawalBits ∨
        (0 < d.trialPeriod ∧ Shared d.trialRules.profitShare) ∧
          total d.trialRules.profitShares ≠ 100 := by
    rw [checkTrialWithdrawal_eq hmp, hmp, shared_some, ← isSome_roles]
    exact avoids_trialCheck (by decide) (avoids_roleCheck (by decide))
  have hexit : Avoids .panic d.checkTrialExit ↔
      RolesIn d.trialRules.addrs.length d.trialRules.exitBits ∨
        (0 < d.trialPeriod ∧ Shared d.trialRules.stakeShare) ∧
          total d.trialRules.stakeShares ≠ 100 := by
    rw [checkTrialExit_eq hms, hms, shared_some, ← isSome_roles]
    refine avoids_trialCheck (by decide) ?_
    simp [validateExit, validateProfitShare, DelegatingStakeRules.exit]
  rw [hwithdrawal, hexit]
  exact ⟨fun ⟨h₁, h₂⟩ => ⟨h₁, h₂⟩, fun ⟨h₁, h₂⟩ => ⟨h₁, h₂⟩⟩

theorem isSome_copy : d.copy.isSome ↔ Covered d.rules ∧ Covered d.trialRules := by
  rw [← DelegatingStakeRules.isSome_copy, ← DelegatingStakeRules.isSome_copy, copy]
  cases d.rules.copy <;> cases d.trialRules.copy <;> simp

theorem copy_eq_some (h : d.copy = some c) :
    d.rules.copy = some c.rules ∧ d.trialRules.copy = some c.trialRules := by
  obtain ⟨rules, hrules, h⟩ := Option.bind_eq_some_iff.1 h
  obtain ⟨trialRules, htrial, h⟩ := Option.bind_eq_some_iff.1 h
  obtain rfl := Option.some.inj h
  exact ⟨hrules, htrial⟩

theorem copy_copy (h : d.copy = some c) : c.copy = some c := by
  obtain ⟨hrules, htrial⟩ := copy_eq_some h
  simp [copy, DelegatingStakeRules.copy_copy hrules, DelegatingStakeRules.copy_copy htrial]

/-- The delegating data of a deposit is copied and checked without a panic: each address has
    its shares, and the roles that the checks look up are those of addresses. -/
structure Readable (d : DelegatingStakeData) : Prop where
  rules : Covered d.rules
  trialRules : Covered d.trialRules
  roles : ∀ c, d.copy = some c →
    c.rules.RolesChecked ∧ (c.rules.validate = .ok () → c.TrialRolesChecked)

theorem avoids_checked : Avoids .panic (checked (some d)) ↔ d.Readable := by
  rw [checked]
  cases hcopy : d.copy with
  | none =>
    have hnot : ¬ (Covered d.rules ∧ Covered d.trialRules) := by
      rw [← isSome_copy, hcopy]
      simp
    simp only [orPanic_none, error_bind, avoids_error, ne_eq, not_true_eq_false, false_iff]
    exact fun h => hnot ⟨h.rules, h.trialRules⟩
  | some c =>
    have hcovered := isSome_copy.1 (by rw [hcopy]; rfl)
    have htrial := fitted_of_copy (copy_eq_some hcopy).2
    have hchecks : Avoids .panic (do
          c.rules.validate
          c.checkTrialWithdrawal
          c.checkTrialExit
          return some c : Except ValError (Option DelegatingStakeData)) ↔
        c.rules.RolesChecked ∧ (c.rules.validate = .ok () → c.TrialRolesChecked) := by
      rw [avoids_bind_unit, avoids_validate, avoids_bind_unit, ← avoids_trialChecks htrial,
        avoids_bind_unit]
      simp
    rw [orPanic_some, ok_bind, hchecks]
    constructor
    · intro h
      exact ⟨hcovered.1, hcovered.2, fun c' hc' => Option.some.inj (hcopy.symm.trans hc') ▸ h⟩
    · intro h
      exact h.roles c hcopy

/-- The data that a deposit returns can be copied and queried. -/
structure Queryable (d : DelegatingStakeData) : Prop where
  copy : d.copy = some d
  rules : d.rules.Queryable
  trialRules : d.trialRules.Queryable

theorem queryable_of_checked {delegate : Option DelegatingStakeData}
    (h : checked delegate = .ok (some c)) : c.Queryable := by
  cases delegate with
  | none => cases h
  | some raw =>
    obtain ⟨hrules, htrial, hwithdrawal, hexit⟩ := checked_eq_ok h
    obtain ⟨copied, hcopy, h⟩ := bind_eq_ok.1 h
    obtain ⟨_, hvalid, h⟩ := bind_eq_ok.1 h
    obtain ⟨_, -, h⟩ := bind_eq_ok.1 h
    obtain ⟨_, -, h⟩ := bind_eq_ok.1 h
    obtain rfl : copied = c := by simpa using h
    obtain ⟨mp, hmp⟩ := Option.isSome_iff_exists.1 (isSome_profitShare htrial)
    obtain ⟨ms, hms⟩ := Option.isSome_iff_exists.1 (isSome_stakeShare htrial)
    rw [checkTrialWithdrawal_eq hmp] at hwithdrawal
    rw [checkTrialExit_eq hms] at hexit
    obtain ⟨hroles, hroles'⟩ := isSome_of_validate hvalid
    refine ⟨copy_copy (orPanic_eq_ok.1 hcopy), ⟨isSome_profitShare hrules, isSome_stakeShare hrules,
      hroles, hroles'⟩, isSome_profitShare htrial, isSome_stakeShare htrial, ?_, ?_⟩
    · refine isSome_of_trialCheck hexit fun h => ?_
      obtain ⟨_, hrole, -⟩ := bind_eq_ok.1 h
      exact isSome_of_roleCheck hrole
    · exact isSome_of_trialCheck hwithdrawal fun h => isSome_of_roleCheck h

end DelegatingStakeData

/-! ## The inputs of the parsers -/

variable {b : Bytes} {opType : SyncOpType} {creatorAddress withdrawalAddress creator : Address}
  {amount balance : Option ℤ}

/-- A deposit is shorter than its fixed part, or ends with it, or has the length of its
    delegating data; and the data that is reached is readable. -/
def DepositOp.Readable (b : Bytes) : Prop :=
  minBinaryLen ≤ b.length → b.drop minBinaryLen ≠ [] →
    4 ≤ (b.drop minBinaryLen).length ∧
    ∀ d, readDelegate (b.drop minBinaryLen) = .ok (some d) →
      blsPubKeyOfBytes (b.take 48) ≠ 0 → addressOfBytes ((b.drop 48).take 20) ≠ 0 →
      blsSignatureOfBytes ((b.drop 88).take 96) ≠ 0 → d.Readable

/-- A sync operation is versioned, or too short for the old format, or it has all fields of
    the old format that its type asks for. -/
def SyncOp.Readable (b : Bytes) : Prop :=
  unwrapVersionedData b = none → valSyncOpDataMinLen ≤ b.length → 76 ≤ b.length ∧
    (SyncOpType.ofUint64 (uint64OfBytes (b.take 8)) = .updateBalance → 96 ≤ b.length)

/-- An exit ends with its fixed part, or has an epoch behind it. -/
def ExitOp.Readable (b : Bytes) : Prop := minExitRequestLen < b.length → 76 ≤ b.length

/-- A withdrawal has an address. -/
def WithdrawalOp.Readable (b : Bytes) : Prop := 20 ≤ b.length

/-- The input of the parser for the given code. -/
def ValOp.Readable (opCode : UInt8) (b : Bytes) : Prop :=
  if opCode = depositCode then DepositOp.Readable b
  else if IsSyncCode opCode then SyncOp.Readable b
  else if opCode = exitCode then ExitOp.Readable b
  else opCode = withdrawalCode → WithdrawalOp.Readable b

theorem avoids_newDepositOperation {pubKey : BlsPubKey} {signature : BlsSignature}
    {delegate : Option DelegatingStakeData} :
    Avoids .panic (newDepositOperation pubKey creatorAddress withdrawalAddress signature delegate) ↔
      ∀ d, delegate = some d → pubKey ≠ 0 → creatorAddress ≠ 0 → signature ≠ 0 → d.Readable := by
  cases delegate with
  | none => simp [newDepositOperation, DelegatingStakeData.checked]
  | some d => simp [newDepositOperation, DelegatingStakeData.avoids_checked]

theorem avoids_readDelegate : Avoids .panic (readDelegate b) ↔ (b ≠ [] → 4 ≤ b.length) := by
  simp [readDelegate]

theorem DepositOp.avoids_unmarshalBinary :
    Avoids .panic (DepositOp.unmarshalBinary b) ↔ DepositOp.Readable b := by
  rw [DepositOp.unmarshalBinary, DepositOp.Readable, avoids_bind_unit, avoids_failIf, failIf_eq_ok,
    not_lt, and_iff_right fun _ => by simp]
  simp only [avoids_bind, avoids_readDelegate, avoids_newDepositOperation]
  refine imp_congr_right fun _ => ?_
  constructor
  · rintro ⟨hlen, hdata⟩ hne
    exact ⟨hlen hne, fun d hd => hdata _ hd d rfl⟩
  · intro h
    refine ⟨fun hne => (h hne).1, ?_⟩
    rintro _ hread d rfl
    have hne : b.drop minBinaryLen ≠ [] := by
      intro hnil
      rw [hnil] at hread
      cases hread
    exact (h hne).2 d hread

theorem avoids_newValidatorSyncOperation {version : UInt16} {initTxHash : Hash}
    {procEpoch index : UInt64} {withdrawalAddress : Option Address} :
    Avoids .panic (newValidatorSyncOperation version opType initTxHash procEpoch index creator
      amount withdrawalAddress balance) := by
  simp [newValidatorSyncOperation]

theorem SyncOp.avoids_readPayment :
    Avoids .panic (readPayment opType b) ↔ (opType = .updateBalance → 96 ≤ b.length) := by
  simp [readPayment]

theorem SyncOp.avoids_unmarshalBinaryLegacy :
    Avoids .panic (unmarshalBinaryLegacy b) ↔ (valSyncOpDataMinLen ≤ b.length → 76 ≤ b.length ∧
        (SyncOpType.ofUint64 (uint64OfBytes (b.take 8)) = .updateBalance → 96 ≤ b.length)) := by
  rw [unmarshalBinaryLegacy, avoids_bind_unit, avoids_failIf, failIf_eq_ok, not_lt,
    and_iff_right fun _ => by simp]
  refine imp_congr_right fun hmin => ?_
  rw [valSyncOpDataMinLen] at hmin
  rw [slice_of_le 0 (by omega), ok_bind, slice_of_le 8 (by omega), ok_bind,
    slice_of_le 40 (by omega), ok_bind, slice_of_le 48 (by omega), ok_bind, avoids_bind,
    avoids_slice]
  refine and_congr_right fun hlen => ?_
  have hpayment : ∀ creator, Avoids .panic (do
      let payment ← readPayment (SyncOpType.ofUint64 (uint64OfBytes (b.take 8))) b
      newValidatorSyncOperation noVer (SyncOpType.ofUint64 (uint64OfBytes (b.take 8)))
        (hashOfBytes ((b.drop 8).take (40 - 8))) (uint64OfBytes ((b.drop 40).take (48 - 40)))
        (uint64OfBytes ((b.drop 48).take (56 - 48))) (addressOfBytes creator) payment.2
        (some payment.1) none) ↔
      (SyncOpType.ofUint64 (uint64OfBytes (b.take 8)) = .updateBalance → 96 ≤ b.length) := by
    intro creator
    rw [avoids_bind, avoids_readPayment]
    exact and_iff_left fun _ _ => avoids_newValidatorSyncOperation
  exact ⟨fun h => (hpayment _).1 (h _ (slice_of_le 56 hlen)), fun h c _ => (hpayment c).2 h⟩

theorem SyncOp.avoids_unmarshalBinary :
    Avoids .panic (SyncOp.unmarshalBinary b) ↔ SyncOp.Readable b := by
  rw [SyncOp.unmarshalBinary, SyncOp.Readable]
  cases hunwrap : unwrapVersionedData b with
  | none => simpa using avoids_unmarshalBinaryLegacy
  | some w =>
    simp [avoids_newValidatorSyncOperation]

theorem ExitOp.avoids_unmarshalBinary :
    Avoids .panic (ExitOp.unmarshalBinary b) ↔ ExitOp.Readable b := by
  have hread : Avoids .panic (ExitOp.unmarshalBinary b) ↔
      (minExitRequestLen ≤ b.length → ExitOp.Readable b) := by
    simp [ExitOp.unmarshalBinary, ExitOp.readEpoch, ExitOp.Readable, newExitOperation]
  exact hread.trans ⟨fun h hlen => h hlen.le hlen, fun h _ => h⟩

theorem WithdrawalOp.avoids_unmarshalBinary :
    Avoids .panic (WithdrawalOp.unmarshalBinary b) ↔ WithdrawalOp.Readable b := by
  simp [WithdrawalOp.unmarshalBinary, newWithdrawalOperation, WithdrawalOp.Readable]

/-! ## The entry point -/

namespace ValOp

variable {opCode : UInt8} {b : Bytes} {op : ValOp}

theorem avoids_unmarshalBinary : Avoids .panic (unmarshalBinary opCode b) ↔ Readable opCode b := by
  rw [unmarshalBinary, Readable]
  split_ifs with hdeposit hsync hexit hwithdrawal
  all_goals simp [*, DepositOp.avoids_unmarshalBinary, SyncOp.avoids_unmarshalBinary,
    ExitOp.avoids_unmarshalBinary, WithdrawalOp.avoids_unmarshalBinary]

/-- The accessors of the operation return; those of a deposit query its delegating rules. -/
def Queryable : ValOp → Prop
  | .deposit op => ∀ d, op.delegatingStake = some d → d.Queryable
  | .exit _ | .withdrawal _ | .sync _ => True

theorem queryable_of_unmarshalBinary (h : unmarshalBinary opCode b = .ok op) : op.Queryable := by
  cases op with
  | deposit op =>
    intro d hd
    rw [unmarshalBinary] at h
    split_ifs at h
    · obtain ⟨op', hop, h⟩ := map_eq_ok.1 h
      obtain rfl : op' = op := by simpa using h
      obtain ⟨-, delegate, hchecked⟩ := unmarshalBinary_eq_ok hop
      rw [hd] at hchecked
      exact DelegatingStakeData.queryable_of_checked hchecked
    all_goals
      obtain ⟨_, -, h⟩ := map_eq_ok.1 h
      cases h
  | exit op => trivial
  | withdrawal op => trivial
  | sync op => trivial

theorem avoids_decodeBytes : Avoids .panic (decodeBytes b) ↔
    ∀ opCode, getOpCode b = .ok opCode → Readable opCode (b.drop 2) := by
  have hcode : Avoids .panic (getOpCode b) := by
    unfold getOpCode
    split <;> simp
  simp [decodeBytes, hcode, avoids_unmarshalBinary]

theorem queryable_of_decodeBytes (h : decodeBytes b = .ok op) : op.Queryable := by
  obtain ⟨opCode, -, h⟩ := bind_eq_ok.1 h
  exact queryable_of_unmarshalBinary h

/-- `DecodeBytes` returns an operation or an error, and the operation it returns can be
    queried, exactly for the inputs whose parser finds all the bytes and list entries that it
    reads. -/
theorem decodeBytes_safe_iff (b : Bytes) :
    (decodeBytes b ≠ .error .panic ∧ ∀ op, decodeBytes b = .ok op → op.Queryable) ↔
      ∀ opCode, getOpCode b = .ok opCode → Readable opCode (b.drop 2) :=
  (and_iff_left fun _ h => queryable_of_decodeBytes h).trans avoids_decodeBytes

/-- The data of a deposit whose rules have shares for one of their two addresses. -/
def shortShares : Bytes :=
  DepositOp.marshalBinary (delegatedOp { twoShares 1 2 with stakeShares := [100] } {})

/-- Inputs that end inside a field: a withdrawal without an address, an exit with one byte of
    an epoch, an activation whose creator has twelve bytes, a balance update without a
    withdrawal address, and a deposit with one byte of the length of its delegating data.  And
    a deposit whose second address has no share of the stake. -/
theorem decodeBytes_panics :
    decodeBytes [opPrefix, withdrawalCode] = .error .panic ∧
    decodeBytes (opPrefix :: exitCode :: List.replicate 69 1) = .error .panic ∧
    decodeBytes (opPrefix :: activateCode :: List.replicate 68 0) = .error .panic ∧
    decodeBytes (opPrefix :: updateBalanceCode :: (bytesBE 8 2 ++ List.replicate 68 1)) =
      .error .panic ∧
    decodeBytes (opPrefix :: depositCode :: List.replicate 185 1) = .error .panic ∧
    decodeBytes (opPrefix :: depositCode :: shortShares) = .error .panic := by
  decide +kernel

end ValOp

end Gwat
