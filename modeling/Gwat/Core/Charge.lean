/-
  What a message costs: the fee and the reward, the charge of a rejected message,
  and the nonce that a charged message uses up.
-/
import Gwat.Core.Transition

namespace Gwat

open GoLib StateDB

variable {env : Env} {msg : Message} {st st' : StateTransition} {db : StateDB} {gp : UInt64}
  {o : Outcome}
variable {t : TxType} {s : StateDB} {gas : UInt64} {op : Token.TokenOp} {e : CoreError}

/-! ## Running a message that passes `preCheck` -/

/-- The state in which an admitted message is executed. -/
def prepared (env : Env) (msg : Message) (st : StateTransition) : StateDB :=
  (charged env msg st).db.prepareAccessList msg.sender msg.toAddr env.evm.activePrecompiles
    msg.accessList

/-- The type under which an admitted message is executed. -/
def chargedType (env : Env) (msg : Message) (st : StateTransition) : TxType :=
  getTxType env msg (charged env msg st).db

theorem gas_charged : (charged env msg (newStateTransition db gp)).gas = msg.gas := by
  simp [charged, newStateTransition]

theorem payIntrinsicGas_eq_ok (h : payIntrinsicGas env msg t st = .ok st') :
    ∃ left, left ≤ st.gas ∧ st' = { st with gas := left } := by
  obtain ⟨gas, -, h⟩ := bind_eq_ok.1 h
  obtain ⟨u, hgas, h⟩ := bind_eq_ok.1 h
  rw [pure_eq_ok, Except.ok.injEq] at h
  subst h
  split_ifs with ht
  · exact ⟨st.gas, UInt64.le_refl _, rfl⟩
  · have hle : gas ≤ st.gas := UInt64.not_lt.1 fun hlt => failIf_eq_ok.1 hgas ⟨ht, hlt⟩
    refine ⟨st.gas - gas, ?_, rfl⟩
    rw [UInt64.le_iff_toNat_le, UInt64.toNat_sub_of_le _ _ hle]
    omega

/-- The check of the value never fails after `preCheck`. -/
theorem executeMsg_of_preCheck (h : preCheck env msg st = .ok st') :
    executeMsg env msg st =
      if chargedType env msg st = .panics then (.error .panic, charged env msg st)
      else
        match payIntrinsicGas env msg (chargedType env msg st) (charged env msg st) with
        | .error e => (.error (.core e), charged env msg st)
        | .ok st₁ =>
          match execute env msg (chargedType env msg st) (prepared env msg st) st₁.gas with
          | .error e =>
            (.error e, { charged env msg st with db := prepared env msg st, gas := st₁.gas })
          | .ok o => (.ok o, { charged env msg st with db := o.db, gas := o.gas }) := by
  obtain ⟨hadm, rfl⟩ := admitted_of_preCheck h
  unfold executeMsg
  rw [h]
  dsimp only
  rw [show getTxType env msg (charged env msg st).db = chargedType env msg st from rfl]
  by_cases hpanics : chargedType env msg st = .panics
  · rw [if_pos hpanics, if_pos hpanics]
  rw [if_neg hpanics, if_neg hpanics]
  cases hpay : payIntrinsicGas env msg (chargedType env msg st) (charged env msg st) with
  | error e => rfl
  | ok st₁ =>
    obtain ⟨left, -, rfl⟩ := payIntrinsicGas_eq_ok hpay
    simp only
    rw [if_neg (by simp [hadm.canTransfer])]
    rfl

theorem executeMsg_eq_ok (h : executeMsg env msg st = (.ok o, st')) :
    Admitted env msg st ∧ ∃ left, left ≤ (charged env msg st).gas ∧
      execute env msg (chargedType env msg st) (prepared env msg st) left = .ok o ∧
      st' = { charged env msg st with db := o.db, gas := o.gas } := by
  cases hpre : preCheck env msg st with
  | error e => simp [executeMsg, hpre] at h
  | ok st₀ =>
    obtain ⟨hadm, -⟩ := admitted_of_preCheck hpre
    rw [executeMsg_of_preCheck hpre] at h
    split_ifs at h
    · simp at h
    split at h
    · simp at h
    · next st₁ hpay =>
      obtain ⟨left, hleft, rfl⟩ := payIntrinsicGas_eq_ok hpay
      split at h
      · simp at h
      · next o' hex =>
        obtain ⟨rfl, rfl⟩ := h
        exact ⟨hadm, left, hleft, hex, rfl⟩

theorem chargedType_ne_panics (h : executeMsg env msg st = (.ok o, st')) :
    chargedType env msg st ≠ .panics := by
  intro ht
  cases hpre : preCheck env msg st with
  | error e => simp [executeMsg, hpre] at h
  | ok st₀ =>
    rw [executeMsg_of_preCheck hpre, if_pos ht] at h
    simp at h

/-! ## Gas and its price -/

theorem tokenCall_eq_ok (h : tokenCall env msg op s gas = .ok o) : o.gas = gas ∧
    o.db = (env.tokens.call s msg.sender msg.recipient msg.value op).2 := by
  unfold tokenCall at h
  split at h
  · cases h
  · next hcall => cases h; rw [hcall]; exact ⟨rfl, rfl⟩
  · next hcall => cases h; rw [hcall]; exact ⟨rfl, rfl⟩

theorem gas_execute (h : execute env msg t s gas = .ok o) : o.gas ≤ gas := by
  unfold execute at h
  split_ifs at h
  · cases h; exact env.evm.gas_create _ _ _ _ _ _ _
  · split at h
    · cases h
    · rw [(tokenCall_eq_ok h).1]; exact UInt64.le_refl _
  · unfold validatorCall at h
    split at h <;> cases h <;> exact UInt64.le_refl _
  · cases h; exact env.evm.gas_call _ _ _ _ _ _ _

theorem gas_executeMsg (h : executeMsg env msg (newStateTransition db gp) = (.ok o, st)) :
    st.gas ≤ msg.gas ∧ st.initialGas = msg.gas ∧ st.gp = gp - msg.gas ∧ msg.gas ≤ gp := by
  obtain ⟨hadm, left, hleft, hex, rfl⟩ := executeMsg_eq_ok h
  exact ⟨UInt64.le_trans (gas_execute hex) (gas_charged ▸ hleft), rfl, rfl, hadm.pool⟩

theorem toNat_gasAfterRefund (h : st.gas ≤ st.initialGas) :
    st.gasAfterRefund.toNat =
      st.gas.toNat + min ((st.initialGas.toNat - st.gas.toNat) / 5) st.db.refund.toNat := by
  have hused : st.gasUsed.toNat = st.initialGas.toNat - st.gas.toNat := UInt64.toNat_sub_of_le _ _ h
  have hmin : (min (st.gasUsed / refundQuotient) st.db.refund).toNat =
      min ((st.initialGas.toNat - st.gas.toNat) / 5) st.db.refund.toNat := by
    rw [← hused]
    have hdiv : (st.gasUsed / refundQuotient).toNat = st.gasUsed.toNat / 5 := UInt64.toNat_div _ _
    rw [UInt64.min_def, ← hdiv]
    split_ifs with hle
    · exact (min_eq_left (UInt64.le_iff_toNat_le.1 hle)).symm
    · exact (min_eq_right (UInt64.le_iff_toNat_le.1 (UInt64.le_of_lt (UInt64.not_le.1 hle)))).symm
  have hle := UInt64.le_iff_toNat_le.1 h
  have hlt := st.initialGas.toNat_lt
  unfold StateTransition.gasAfterRefund
  rw [UInt64.toNat_add, hmin, Nat.mod_eq_of_lt (by omega)]

/-- The gas returned never overflows the pool it was taken from, so an executed message
    is settled. -/
theorem settle_executeMsg (h : executeMsg env msg (newStateTransition db gp) = (.ok o, st)) :
    settle env msg o st = (.ok ⟨msg.gas - st.gasAfterRefund, o.err, o.ret⟩,
      { st with
        db := (st.db.addBalance msg.sender (refundAmount msg st)).addBalance env.coinbase
          (creatorReward env msg)
        gp := st.gp + st.gasAfterRefund
        gas := st.gasAfterRefund }) := by
  obtain ⟨hgas, hinit, hgp, hpool⟩ := gas_executeMsg h
  have hg := @toNat_gasAfterRefund st (by rwa [hinit])
  rw [hinit] at hg
  have hle := UInt64.le_iff_toNat_le.1 hgas
  have hroom : ¬ 2 ^ 64 ≤ st.gp.toNat + st.gasAfterRefund.toNat := by
    have hsub : st.gp.toNat = gp.toNat - msg.gas.toNat := by
      rw [hgp]; exact UInt64.toNat_sub_of_le _ _ hpool
    have hpool' := UInt64.le_iff_toNat_le.1 hpool
    have hlt := gp.toNat_lt
    omega
  unfold settle settleWith refundGas
  rw [if_neg hroom]
  simp only [StateTransition.gasUsed, hinit]

/-- A message is executed without a core error exactly when its execution ends, and is
    then settled. -/
theorem applyMessage_eq_ok {r : ExecutionResult} (h : applyMessage env msg db gp = (.ok r, st')) :
    ∃ o st, executeMsg env msg (newStateTransition db gp) = (.ok o, st) ∧
      settle env msg o st = (.ok r, st') := by
  unfold applyMessage transitionDb at h
  split at h
  · simp at h
  · next o st hex => exact ⟨o, st, hex, h⟩

/-- An interpreter whose programs stop at once. -/
def stopInterpreter : Interpreter where
  run c _ s := ⟨[], c.gas, none, s⟩
  gas_run _ _ _ := UInt64.le_refl _
  nonce_run _ _ _ _ _ _ _ := rfl

/-- A block with base fee 1000 on an empty chain. -/
def idleEnv : Env where
  evm := ⟨stopInterpreter, fun _ => none, [], fun _ _ => 0xC0⟩
  tokens := ⟨fun _ => 0, fun _ _ => 0xC0⟩
  validators := .devnet
  baseFee := 1000
  coinbase := 0xCB
  noBaseFee := false

/-- A message of account `1` with the given recipient, data and gas limit. -/
def idleMsg (toAddr : Address) (data : Bytes) (gas : UInt64) : Message where
  sender := 1
  toAddr := some toAddr
  gasPrice := 1000
  gasFeeCap := 1000
  gasTipCap := 0
  gas := gas
  value := 0
  nonce := 5
  isFake := false
  data := data
  accessList := []
  txHash := 0xAB

/-- Account `1` has some coins and the nonce 5. -/
def idleDb : StateDB :=
  { empty with
    accounts := fun a => if a = 1 then some ⟨10 ^ 12, 5, [], fun _ => 0⟩ else none }

/-- The reward of the creator is at most the fee less the refund exactly when the gas
    that is left and refunded, at its price, is worth at most the burned part of the fee
    of the whole gas limit. -/
theorem reward_le_net_fee_iff (env : Env) (msg : Message) (db : StateDB) (gp : UInt64)
    (r : ExecutionResult) (st' : StateTransition)
    (hrun : applyMessage env msg db gp = (.ok r, st')) :
    ∃ o st, executeMsg env msg (newStateTransition db gp) = (.ok o, st) ∧
      st'.db = (o.db.addBalance msg.sender (refundAmount msg st)).addBalance env.coinbase
        (creatorReward env msg) ∧
      (creatorReward env msg ≤ txFee env msg - refundAmount msg st ↔
        (o.gas.toNat + min ((msg.gas.toNat - o.gas.toNat) / 5) o.db.refund.toNat) * msg.gasPrice ≤
          msg.gas.toNat * env.baseFee - msg.gas.toNat * env.baseFee / 3) := by
  obtain ⟨o, st, hex, hset⟩ := applyMessage_eq_ok hrun
  obtain ⟨hgas, hinit, -, -⟩ := gas_executeMsg hex
  rw [settle_executeMsg hex, Prod.mk.injEq] at hset
  have hg := @toNat_gasAfterRefund st (by rwa [hinit])
  obtain ⟨-, left, -, -, rfl⟩ := executeMsg_eq_ok hex
  refine ⟨o, _, hex, by rw [← hset.2], ?_⟩
  -- the tips are part of both the fee and the reward
  have hfee : txFee env msg =
      (msg.gas.toNat * env.baseFee : ℕ) + msg.gas.toNat * tips env msg := by
    unfold txFee; push_cast; ring
  unfold creatorReward calcCreatorReward refundAmount
  rw [hfee, hg, ← Nat.cast_mul]
  simp only [charged]
  generalize msg.gas.toNat * env.baseFee = fee
  generalize (o.gas.toNat + min ((msg.gas.toNat - o.gas.toNat) / 5) o.db.refund.toNat) *
    msg.gasPrice = returned
  generalize (msg.gas.toNat : ℤ) * tips env msg = t
  omega

/-- A transfer with a gas limit of a million uses 21000 gas and costs the sender
    21000000, of which the creator receives 333333333. -/
theorem reward_exceeds_net_fee :
    ∃ o st r st', executeMsg idleEnv (idleMsg 2 [] 1000000) (newStateTransition idleDb 8000000) =
        (.ok o, st) ∧
      applyMessage idleEnv (idleMsg 2 [] 1000000) idleDb 8000000 = (.ok r, st') ∧
      r.usedGas = 21000 ∧
      txFee idleEnv (idleMsg 2 [] 1000000) - refundAmount (idleMsg 2 [] 1000000) st = 21000000 ∧
      creatorReward idleEnv (idleMsg 2 [] 1000000) = 333333333 :=
  ⟨_, _, _, _, rfl, rfl, by decide, by decide, by decide⟩

/-- A transfer whose gas limit is the gas it uses is within the bound. -/
theorem reward_le_net_fee_exact :
    ∃ o st r st', executeMsg idleEnv (idleMsg 2 [] 21000) (newStateTransition idleDb 8000000) =
        (.ok o, st) ∧
      applyMessage idleEnv (idleMsg 2 [] 21000) idleDb 8000000 = (.ok r, st') ∧
      creatorReward idleEnv (idleMsg 2 [] 21000) ≤
        txFee idleEnv (idleMsg 2 [] 21000) - refundAmount (idleMsg 2 [] 21000) st := by
  obtain ⟨o, st, hex, -, hiff⟩ := reward_le_net_fee_iff idleEnv (idleMsg 2 [] 21000) idleDb 8000000
    _ _ rfl
  refine ⟨o, st, _, _, hex, rfl, hiff.2 ?_⟩
  cases hex
  decide

/-! ## Rejected messages -/

/-- The checks after `preCheck`, if `IsToken` does not panic: the intrinsic gas can be computed and
    is covered by the gas limit, which sync operations need not, and a token operation decodes. -/
def LaterChecks (env : Env) (msg : Message) (t : TxType) : Prop :=
  t = .panics ∨
    (∃ gas, msgIntrinsicGas env msg t = .ok gas ∧ (t = .validatorSync ∨ gas ≤ msg.gas)) ∧
      (t.isTokenOp → ∃ op, Token.decodeTokenOp msg.data = .ok op)

/-- The balances, the nonces and the gas pool are those given. -/
def CostsNothing (db : StateDB) (gp : UInt64) (st : StateTransition) : Prop :=
  (∀ a, st.db.getBalance a = db.getBalance a) ∧ SameNonces db st.db ∧ st.gp = gp

theorem payIntrinsicGas_isOk (hgas : st.gas = msg.gas) :
    (∃ st', payIntrinsicGas env msg t st = .ok st') ↔
      ∃ gas, msgIntrinsicGas env msg t = .ok gas ∧ (t = .validatorSync ∨ gas ≤ msg.gas) := by
  unfold payIntrinsicGas
  simp only [bind_eq_ok, failIf_eq_ok, pure_eq_ok, Except.ok.injEq, hgas]
  constructor
  · rintro ⟨st', gas, hg, u, hle, -⟩
    refine ⟨gas, hg, ?_⟩
    by_cases ht : t = .validatorSync
    · exact .inl ht
    · exact .inr (UInt64.not_lt.1 fun hlt => hle ⟨ht, hlt⟩)
  · rintro ⟨gas, hg, hle⟩
    refine ⟨_, gas, hg, (), ?_, rfl⟩
    rintro ⟨ht, hlt⟩
    rcases hle with hle | hle
    · exact ht hle
    · exact UInt64.not_lt.2 hle hlt

/-- The execution itself raises a core error only for a token operation that does not
    decode. -/
theorem execute_eq_core (h : execute env msg t s gas = .error (.core e)) :
    t.isTokenOp ∧ ¬ ∃ op, Token.decodeTokenOp msg.data = .ok op := by
  unfold execute at h
  split_ifs at h with h₁ h₂ h₃
  · refine ⟨h₂, ?_⟩
    rintro ⟨op, hop⟩
    simp only [hop, tokenCall] at h
    split at h <;> cases h
  · unfold validatorCall at h
    split at h <;> cases h

theorem isContractCreation_of_isTokenOp (h : t.isTokenOp) : ¬ t.isContractCreation := by
  cases t <;> simp_all [TxType.isTokenOp, TxType.isContractCreation]

theorem execute_of_undecodable (s : StateDB) (gas : UInt64) (ht : t.isTokenOp)
    (h : ¬ ∃ op, Token.decodeTokenOp msg.data = .ok op) :
    ∃ e, execute env msg t s gas = .error (.core e) := by
  unfold execute
  rw [if_neg (isContractCreation_of_isTokenOp ht), if_pos ht]
  cases hd : Token.decodeTokenOp msg.data with
  | error e => exact ⟨_, rfl⟩
  | ok op => exact absurd ⟨op, hd⟩ h

/-- A core error is one of `executeMsg`, in its state. -/
theorem applyMessage_eq_core :
    applyMessage env msg db gp = (.error (.core e), st') ↔
      executeMsg env msg (newStateTransition db gp) = (.error (.core e), st') := by
  unfold applyMessage transitionDb
  split
  · next h => rw [h]; simp
  · next o st h => rw [h, settle_executeMsg h]; simp

/-- A message rejected after `preCheck` fails a later check and keeps its charge. -/
theorem rejected_after_preCheck (hpre : preCheck env msg (newStateTransition db gp) = .ok st)
    (h : applyMessage env msg db gp = (.error (.core e), st')) :
    ¬ LaterChecks env msg (chargedType env msg (newStateTransition db gp)) ∧
      st'.gp = gp - msg.gas ∧
      (∀ a, st'.db.getBalance a = (db.subBalance msg.sender (txFee env msg)).getBalance a) ∧
      SameNonces db st'.db := by
  have hnonces : SameNonces db (db.subBalance msg.sender (txFee env msg)) :=
    fun _ => getNonce_subBalance _
  rw [applyMessage_eq_core, executeMsg_of_preCheck hpre] at h
  split_ifs at h with hpanics
  · simp at h
  split at h
  · next e' hpay =>
    obtain ⟨-, rfl⟩ := h
    refine ⟨fun hl => ?_, rfl, fun _ => rfl, hnonces⟩
    obtain ⟨st₁, hst₁⟩ := (payIntrinsicGas_isOk gas_charged).2 (hl.resolve_left hpanics).1
    rw [hst₁] at hpay; cases hpay
  · split at h
    · next e' hex =>
      obtain ⟨rfl, rfl⟩ := h
      obtain ⟨ht, hd⟩ := execute_eq_core hex
      exact ⟨fun hl => hd ((hl.resolve_left hpanics).2 ht), rfl, fun _ => rfl, hnonces⟩
    · simp at h

theorem rejected_of_not_laterChecks (hpre : preCheck env msg (newStateTransition db gp) = .ok st)
    (h : ¬ LaterChecks env msg (chargedType env msg (newStateTransition db gp))) :
    ∃ e st', applyMessage env msg db gp = (.error (.core e), st') := by
  obtain ⟨hpanics, h⟩ := not_or.1 h
  simp only [applyMessage_eq_core]
  rw [executeMsg_of_preCheck hpre, if_neg hpanics]
  split
  · exact ⟨_, _, rfl⟩
  · next st₁ hpay =>
    have hintrinsic := (payIntrinsicGas_isOk gas_charged).1 ⟨st₁, hpay⟩
    -- the intrinsic gas is paid, so the token operation does not decode
    obtain ⟨ht, hd⟩ := Classical.not_imp.1 fun hdec => h ⟨hintrinsic, hdec⟩
    obtain ⟨e, he⟩ := execute_of_undecodable (prepared env msg (newStateTransition db gp)) st₁.gas
      ht hd
    exact ⟨e, _, by rw [he]⟩

/-- A rejected message leaves the balances, the nonces and the gas pool alone exactly when
    its gas limit is zero, `preCheck` refuses it, or it passes the later checks. -/
theorem rejected_costs_nothing_iff (env : Env) (msg : Message) (db : StateDB) (gp : UInt64) :
    (∀ e st', applyMessage env msg db gp = (.error (.core e), st') → CostsNothing db gp st') ↔
      msg.gas = 0 ∨ (∃ e, preCheck env msg (newStateTransition db gp) = .error e) ∨
        LaterChecks env msg (getTxType env msg (db.subBalance msg.sender (txFee env msg))) := by
  cases hpre : preCheck env msg (newStateTransition db gp) with
  | error e =>
    refine ⟨fun _ => .inr (.inl ⟨e, rfl⟩), fun _ e' st' h => ?_⟩
    rw [applyMessage_eq_core, executeMsg, hpre, Prod.mk.injEq] at h
    obtain ⟨-, rfl⟩ := h
    exact ⟨fun _ => rfl, .refl _, rfl⟩
  | ok st =>
    obtain ⟨hadm, -⟩ := admitted_of_preCheck hpre
    constructor
    · intro h
      by_contra hc
      rw [not_or, not_or] at hc
      obtain ⟨hgas, -, hlater⟩ := hc
      -- the rejected message has taken its gas out of the pool
      obtain ⟨e, st', hrej⟩ := rejected_of_not_laterChecks hpre hlater
      have hgp := (h e st' hrej).2.2
      rw [(rejected_after_preCheck hpre hrej).2.1] at hgp
      have hsub := UInt64.toNat_sub_of_le _ _ hadm.pool
      have hle := UInt64.le_iff_toNat_le.1 hadm.pool
      have hpos : msg.gas.toNat ≠ 0 := fun h0 => hgas (UInt64.toNat_inj.1 h0)
      simp only [newStateTransition] at hsub hle
      rw [hgp] at hsub
      omega
    · rintro hcond e st' hrej
      obtain ⟨hlater, hgp, hbal, hnonce⟩ := rejected_after_preCheck hpre hrej
      rcases hcond with hgas | ⟨e, he⟩ | hl
      · refine ⟨fun a => ?_, hnonce, by rw [hgp, hgas]; simp⟩
        rw [hbal, getBalance_subBalance]
        simp [txFee, hgas]
      · cases he
      · exact absurd hl hlater

/-- A transfer with a gas limit of 20000 is rejected for its intrinsic gas; its sender has
    paid 20000000, and the pool has lost the gas. -/
theorem rejected_transfer_charged :
    ∃ st', applyMessage idleEnv (idleMsg 2 [] 20000) idleDb 8000000 =
        (.error (.core .intrinsicGas), st') ∧
      st'.db.getBalance 1 = idleDb.getBalance 1 - 20000000 ∧ st'.gp = 7980000 :=
  ⟨_, rfl, by decide, by decide⟩

/-! ## The nonce -/

/-- The message is the creation of a token that `token.Processor.Call` refuses before it
    touches the nonce: it names a recipient, or the address of the token is taken. -/
def TokenCreateRefused (env : Env) (msg : Message) (t : TxType) (s : StateDB) : Prop :=
  t.isTokenOp ∧ ∃ op, Token.decodeTokenOp msg.data = .ok op ∧
    env.tokens.Refuses s msg.sender msg.recipient op

theorem decode_of_isValidatorOp (h : (getTxType env msg s).isValidatorOp) :
    ∃ op, env.validators.opCodec.decodeBytes msg.data = .ok op := by
  cases hd : env.validators.opCodec.decodeBytes msg.data with
  | ok op => exact ⟨op, rfl⟩
  | error e =>
    simp only [getTxType, hd] at h
    repeat' split at h
    all_goals simp [TxType.isValidatorOp] at h

theorem getNonce_execute (h : execute env msg t s gas = .ok o)
    (ht : t.isValidatorOp → ∃ op, env.validators.opCodec.decodeBytes msg.data = .ok op)
    (hn : s.getNonce msg.sender + 1 ≠ 0) (hc : s.Inert msg.sender)
    (hv : canTransfer s msg.sender msg.value) (href : ¬ TokenCreateRefused env msg t s) :
    o.db.getNonce msg.sender = s.getNonce msg.sender + 1 := by
  unfold execute at h
  split_ifs at h with hcreate htoken hval
  · cases h
    exact Evm.getNonce_create (Nat.zero_le _) hv hn hc
  · split at h
    · cases h
    · next op hop =>
      rw [(tokenCall_eq_ok h).2]
      exact (Token.Processor.getNonce_call hn).1 fun hr => href ⟨htoken, op, hop, hr⟩
  · obtain ⟨op, hop⟩ := ht hval
    have hcall := env.validators.getNonce_call s msg.sender msg.recipient msg.value msg.txHash hop
    unfold validatorCall at h
    split at h
    · cases h
    · next s' hs => cases h; rw [hs] at hcall; exact hcall
    · next s' hs => cases h; rw [hs] at hcall; exact hcall
  · cases h
    have hset : (s.setNonce msg.sender (s.getNonce msg.sender + 1)).getNonce msg.sender =
        s.getNonce msg.sender + 1 := (getNonce_setNonce _).trans (if_pos rfl)
    rw [Evm.getNonce_call (by rwa [hset]) ((Evm.inert_congr (getCode_setNonce _)).2 hc), hset]

theorem getNonce_execute_of_refused (h : execute env msg t s gas = .ok o)
    (hn : s.getNonce msg.sender + 1 ≠ 0) (href : TokenCreateRefused env msg t s) :
    o.db.getNonce msg.sender = s.getNonce msg.sender := by
  obtain ⟨ht, op, hop, hr⟩ := href
  have hc := isContractCreation_of_isTokenOp ht
  unfold execute at h
  rw [if_neg hc, if_pos ht, hop] at h
  rw [(tokenCall_eq_ok h).2]
  exact (Token.Processor.getNonce_call hn).2 hr

/-- A charged message uses up the nonce of its sender exactly when it is not a refused
    token creation and the nonce is not the largest. -/
theorem nonce_used_up_iff (env : Env) (msg : Message) (db : StateDB) (gp : UInt64)
    (r : ExecutionResult) (st' : StateTransition)
    (hrun : applyMessage env msg db gp = (.ok r, st')) (hsigned : msg.isFake = false) :
    (st'.db.getNonce msg.sender).toNat = (db.getNonce msg.sender).toNat + 1 ↔
      db.getNonce msg.sender ≠ maxUint64 ∧
        ¬ TokenCreateRefused env msg (getTxType env msg (db.subBalance msg.sender (txFee env msg)))
          (db.subBalance msg.sender (txFee env msg)) := by
  obtain ⟨o, st, hex, hset⟩ := applyMessage_eq_ok hrun
  rw [settle_executeMsg hex, Prod.mk.injEq] at hset
  obtain ⟨hadm, left, -, hexec, rfl⟩ := executeMsg_eq_ok hex
  -- the state of the execution has the nonces and the codes of `db`
  have hnonce : (prepared env msg (newStateTransition db gp)).getNonce msg.sender =
      db.getNonce msg.sender := getNonce_subBalance _
  have hcode : (prepared env msg (newStateTransition db gp)).getCode msg.sender =
      db.getCode msg.sender := getCode_subBalance _
  have hfinal : st'.db.getNonce msg.sender = o.db.getNonce msg.sender := by
    rw [← hset.2]; simp
  have hinert : (prepared env msg (newStateTransition db gp)).Inert msg.sender :=
    (Evm.inert_congr hcode).2 (hadm.inert hsigned)
  have hmax : maxUint64.toNat = 2 ^ 64 - 1 := by decide
  have hlt := (o.db.getNonce msg.sender).toNat_lt
  rw [hfinal]
  by_cases hn : db.getNonce msg.sender = maxUint64
  · simp only [hn, hmax, ne_eq, not_true_eq_false, false_and, iff_false]
    omega
  · have hsucc : (db.getNonce msg.sender + 1).toNat = (db.getNonce msg.sender).toNat + 1 := by
      have hne : (db.getNonce msg.sender).toNat ≠ maxUint64.toNat := fun h => hn (UInt64.toNat_inj.1 h)
      have := (db.getNonce msg.sender).toNat_lt
      rw [UInt64.toNat_add, UInt64.toNat_one, Nat.mod_eq_of_lt (by omega)]
    have hne0 : (prepared env msg (newStateTransition db gp)).getNonce msg.sender + 1 ≠ 0 := by
      intro h0
      rw [hnonce] at h0
      rw [h0] at hsucc
      simp at hsucc
    constructor
    · refine fun heq => ⟨hn, fun href => ?_⟩
      rw [getNonce_execute_of_refused hexec hne0 href, hnonce] at heq
      omega
    · rintro ⟨-, href⟩
      rw [getNonce_execute hexec decode_of_isValidatorOp hne0 hinert hadm.canTransfer href, hnonce,
        hsucc]

/-- The data of the creation of a WRC-20 token. -/
def createData : Bytes :=
  ((Token.Operation.create Token.stdWRC20 (Token.textBytes "Coin") (Token.textBytes "C") 18
    (some 1000) none 0).encodeToBytes).toOption.getD []

/-- A message of account `1` that creates the token. -/
def createMsg : Message := { idleMsg 0 createData 50000 with toAddr := none }

/-- Somebody has sent a coin to the address of the token. -/
def takenDb : StateDB := idleDb.addBalance 0xC0 1

/-- A token creation whose address is taken is charged and leaves the nonce at 5, so the same message
    is charged again. -/
theorem token_create_keeps_nonce :
    let first := applyMessage idleEnv createMsg takenDb 8000000
    let second := applyMessage idleEnv createMsg first.2.db 8000000
    (∃ op, Token.Operation.decodeBytes createData = .ok op ∧ op.opCode = .create) ∧
      first.1.map (·.err) = .ok (some (.token .addressAlreadyExists)) ∧
      first.2.db.getNonce 1 = takenDb.getNonce 1 ∧
      second.1.map (·.err) = .ok (some (.token .addressAlreadyExists)) ∧
      second.2.db.getBalance 1 < first.2.db.getBalance 1 ∧
      first.2.db.getBalance 1 < takenDb.getBalance 1 := by
  refine ⟨⟨.create Token.stdWRC20 (Token.textBytes "Coin") (Token.textBytes "C") 18 (some 1000)
    none 0, ?_, rfl⟩, ?_⟩
  · decide
  · decide

/-- A transfer moves the nonce from 5 to 6. -/
theorem nonce_used_up_transfer :
    ∃ r st', applyMessage idleEnv (idleMsg 2 [] 21000) idleDb 8000000 = (.ok r, st') ∧
      (st'.db.getNonce 1).toNat = (idleDb.getNonce 1).toNat + 1 :=
  ⟨_, _, rfl, (nonce_used_up_iff idleEnv (idleMsg 2 [] 21000) idleDb 8000000 _ _ rfl rfl).2
    ⟨by decide, fun h => absurd h.1 (by decide)⟩⟩

end Gwat
