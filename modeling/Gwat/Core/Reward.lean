/-
  The sign of the creator's reward (`core/state_transition.go`, `consensus/misc/eip1559.go`).

  The tips of a message are what its fee cap leaves above the base fee.  A message of a validator
  to the validators' address may have a fee cap below the base fee; its tips are then negative and
  are added to the creator's part of the fee all the same.
-/
import Gwat.Core.Charge
import Gwat.Lib.Rounding

namespace Gwat

open GoLib

/-- `1 - params.BurnMultiplier`, in units of `2 ^ -53`. -/
def validatorPart : ℕ := 3002399751580331

/-- `CalcCreatorReward`: the product has the bits of the fee, at least 64, and its fraction is cut
    off. -/
def calcCreatorRewardFloat (gas : UInt64) (baseFee : ℕ) : ℕ :=
  let fee := gas.toNat * baseFee
  roundBits (max 64 fee.size) (validatorPart * fee) / 2 ^ 53

/-- The reward of the creator, with the rounded part of the fee. -/
def creatorRewardFloat (env : Env) (msg : Message) : ℤ :=
  calcCreatorRewardFloat msg.gas env.baseFee + msg.gas.toNat * tips env msg

/-- `TransitionDb`, with the rounded part of the fee. -/
def transitionDbFloat (env : Env) (msg : Message) (st : StateTransition) :
    Except Halt ExecutionResult × StateTransition :=
  match executeMsg env msg st with
  | (.error e, st) => (.error e, st)
  | (.ok o, st) => settleWith (creatorRewardFloat env msg) env msg o st

section

variable {env : Env} {msg : Message} {gas : UInt64} {baseFee g b c : ℕ}

/-! ## The creator's part of the fee -/

theorem div_three_le_calcCreatorRewardFloat :
    gas.toNat * baseFee / 3 ≤ calcCreatorRewardFloat gas baseFee := by
  unfold calcCreatorRewardFloat
  generalize gas.toNat * baseFee = fee
  have hfits : fee / 3 < 2 ^ max 64 fee.size :=
    calc fee / 3 ≤ fee := Nat.div_le_self _ _
      _ < 2 ^ fee.size := Nat.lt_size_self fee
      _ ≤ 2 ^ max 64 fee.size := Nat.pow_le_pow_right (by norm_num) (le_max_right _ _)
  have hthird : fee / 3 * 2 ^ 53 ≤ validatorPart * fee := by
    unfold validatorPart
    omega
  exact (Nat.le_div_iff_mul_le (by norm_num)).2 (le_roundBits hfits hthird)

/-- For a fee below `2 ^ 52` the part is the third of the fee. -/
theorem calcCreatorRewardFloat_eq (h : gas.toNat * baseFee < 2 ^ 52) :
    calcCreatorRewardFloat gas baseFee = gas.toNat * baseFee / 3 := by
  refine le_antisymm ?_ div_three_le_calcCreatorRewardFloat
  unfold calcCreatorRewardFloat
  generalize gas.toNat * baseFee = fee at h
  have hsize : (validatorPart * fee).size ≤ 104 := by
    refine Nat.size_le.2 ?_
    unfold validatorPart
    omega
  have hdrop : 2 ^ droppedBits (max 64 fee.size) (validatorPart * fee) ≤ 2 ^ 40 := by
    refine Nat.pow_le_pow_right (by norm_num) ?_
    unfold droppedBits
    omega
  have hround := @two_mul_roundBits_le (validatorPart * fee) (max 64 fee.size)
  refine Nat.lt_succ_iff.1 ((Nat.div_lt_iff_lt_mul (by norm_num)).2 ?_)
  unfold validatorPart at hround hdrop ⊢
  omega

/-! ## The sign of the fee and of the reward -/

theorem txFee_nonneg : 0 ≤ txFee env msg := by
  unfold txFee
  rw [baseFee_add_tips]
  positivity

theorem creatorRewardFloat_nonneg_iff : 0 ≤ creatorRewardFloat env msg ↔
      msg.gas.toNat * (env.baseFee - msg.gasFeeCap) ≤ calcCreatorRewardFloat msg.gas env.baseFee := by
  unfold creatorRewardFloat
  rcases le_or_gt env.baseFee msg.gasFeeCap with hcap | hcap
  · -- the tips are not negative
    have htips : 0 ≤ tips env msg := by
      unfold tips
      split_ifs <;> omega
    rw [Nat.sub_eq_zero_of_le hcap]
    exact iff_of_true (by positivity) (by simp)
  · have htips : tips env msg = -((env.baseFee - msg.gasFeeCap : ℕ) : ℤ) := by
      unfold tips
      omega
    rw [htips, mul_neg, ← sub_eq_add_neg, sub_nonneg, ← Nat.cast_mul, Nat.cast_le]

/-- What the fee cap lacks is at most a third of the fee exactly if the cap is at least two thirds
    of the base fee. -/
theorem lacking_le_third : g * (b - c) ≤ g * b / 3 ↔ g = 0 ∨ 2 * b ≤ 3 * c := by
  rw [Nat.le_div_iff_mul_le (by norm_num), mul_assoc]
  rcases Nat.eq_zero_or_pos g with rfl | hg
  · simp
  · rw [Nat.mul_le_mul_left_iff hg]
    omega

/-- For a message that passes `preCheck`: the fee that is subtracted from the sender is not
    negative; the reward that is added to the balance of the creator is not negative exactly if
    the creator's part of the fee covers what the fee cap lacks of the base fee.  For fees below
    `2 ^ 52` this means that the fee cap is at least two thirds of the base fee, which suffices
    for all fees. -/
theorem creator_not_charged_iff (env : Env) (msg : Message) (st st' : StateTransition)
    (hpre : preCheck env msg st = .ok st') :
    st'.db = st.db.subBalance msg.sender (txFee env msg) ∧ 0 ≤ txFee env msg ∧
    (∀ r st₁, transitionDbFloat env msg st = (.ok r, st₁) → ∃ o st₂ st₃,
      executeMsg env msg st = (.ok o, st₂) ∧ refundGas msg st₂ = .ok st₃ ∧
        st₁.db = st₃.db.addBalance env.coinbase (creatorRewardFloat env msg)) ∧
    (0 ≤ creatorRewardFloat env msg ↔ msg.gas.toNat * (env.baseFee - msg.gasFeeCap) ≤
      calcCreatorRewardFloat msg.gas env.baseFee) ∧
    (msg.gas.toNat * env.baseFee < 2 ^ 52 →
      (0 ≤ creatorRewardFloat env msg ↔
        msg.gas.toNat = 0 ∨ 2 * env.baseFee ≤ 3 * msg.gasFeeCap)) ∧
    (2 * env.baseFee ≤ 3 * msg.gasFeeCap → 0 ≤ creatorRewardFloat env msg) := by
  obtain ⟨-, rfl⟩ := admitted_of_preCheck hpre
  refine ⟨rfl, txFee_nonneg, fun r st₁ hrun => ?_, creatorRewardFloat_nonneg_iff, fun hfee => ?_,
    fun hcap => ?_⟩
  · unfold transitionDbFloat at hrun
    split at hrun
    · cases hrun
    · next o st₂ hex =>
      unfold settleWith at hrun
      split at hrun
      · cases hrun
      · next st₃ hrefund =>
        rw [Prod.mk.injEq] at hrun
        exact ⟨o, st₂, st₃, hex, hrefund, by rw [← hrun.2]⟩
  · rw [creatorRewardFloat_nonneg_iff, calcCreatorRewardFloat_eq hfee]
    exact lacking_le_third
  · rw [creatorRewardFloat_nonneg_iff]
    exact (lacking_le_third.2 (.inr hcap)).trans div_three_le_calcCreatorRewardFloat

end

/-! ### A validator whose fee cap is zero -/

/-- Account `1` is a validator. -/
def validatorDb : StateDB :=
  { StateDB.empty with
    accounts := fun a => if a = 1 then some ⟨10 ^ 12, 5, (1 : Address).bytes, fun _ => 0⟩
      else none }

/-- A message of the validator to the validators' address with the given fee cap. -/
def validatorMsg (gasFeeCap : ℕ) : Message :=
  { idleMsg 0xFFFF [] 21000 with gasFeeCap := gasFeeCap, gasPrice := gasFeeCap }

theorem creator_not_charged_fullCap :
    (preCheck idleEnv (validatorMsg 700) (newStateTransition validatorDb 8000000)).isOk ∧
      0 ≤ creatorRewardFloat idleEnv (validatorMsg 700) := by
  refine ⟨by decide, ?_⟩
  obtain ⟨-, -, -, -, -, hsuff⟩ := creator_not_charged_iff idleEnv (validatorMsg 700)
    (newStateTransition validatorDb 8000000) _ rfl
  exact hsuff (by decide)

/-- With the base fee 1000 and the fee cap 0 the message is executed: the sender pays nothing, and
    the creator pays 14000000. -/
theorem creator_charged :
    ∃ r st, transitionDbFloat idleEnv (validatorMsg 0) (newStateTransition validatorDb 8000000) =
        (.ok r, st) ∧ r.err = none ∧
      txFee idleEnv (validatorMsg 0) = 0 ∧
      creatorRewardFloat idleEnv (validatorMsg 0) = -14000000 ∧
      st.db.getBalance idleEnv.coinbase = -14000000 :=
  ⟨_, _, rfl, by decide, by decide, by decide, by decide⟩

end Gwat
