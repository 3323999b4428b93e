/-
  What a deposit may touch.
-/
import Gwat.Validator.RecordBinary
import Gwat.Validator.Steps

namespace Gwat

open GoLib List StateDB Validator

variable {s s' : StateDB} {a : Address} {n : UInt64}

/-- The account holds a decodable record of the validator with its address. -/
def HoldsRecord (cd : RecordCodec) (s : StateDB) (a : Address) : Prop :=
  ∃ v, getValidator cd s a = .ok v ∧ v.address = a

/-- A deposit for `creator` only creates or updates the record of `creator`, and adds one to
    the deposit count. -/
structure DepositFrame (p : Processor) (s s' : StateDB) (creator : Address) : Prop where
  others : ∀ a, a ≠ creator → a ≠ p.validatorsStateAddress → s'.getCode a = s.getCode a
  creatorBefore : s.getCode creator = [] ∨ HoldsRecord p.codec s creator
  count : ∃ n, getDepositCount s p.validatorsStateAddress = .ok n ∧
    getDepositCount s' p.validatorsStateAddress = .ok (n + 1)
  list : (s'.getCode p.validatorsStateAddress).drop 8 = (s.getCode p.validatorsStateAddress).drop 8
  notOverwritten : creator = p.validatorsStateAddress ∨
      (s.getCode creator ≠ [] ∧ ¬ HoldsRecord p.codec s creator) →
    s'.getCode creator = s.getCode creator

/-! ## The deposit count -/

theorem getDepositCount_congr (h : s'.getCode a = s.getCode a) :
    getDepositCount s' a = getDepositCount s a := by
  simp only [getDepositCount, h]

theorem getDepositCount_of_getCode {rest : Bytes} (h : s.getCode a = uint64BytesBE n ++ rest) :
    getDepositCount s a = .ok n := by
  have hlen := length_uint64BytesBE n
  simp only [getDepositCount]
  rw [h, if_neg (by simp [uint64BytesBE, bytesBE]), if_neg (by simp [hlen]),
    take_left' hlen, natOfBytes_uint64BytesBE, UInt64.ofNat_toNat]

theorem uint64BytesBE_of_getDepositCount (hne : s.getCode a ≠ [])
    (h : getDepositCount s a = .ok n) : (s.getCode a).take 8 = uint64BytesBE n := by
  simp only [getDepositCount, if_neg hne] at h
  split_ifs at h with hlen
  rw [Except.ok.injEq] at h
  have htake : ((s.getCode a).take 8).length = 8 := by
    rw [length_take]
    omega
  have hbytes := bytesBE_natOfBytes ((s.getCode a).take 8)
  have hlt := natOfBytes_lt ((s.getCode a).take 8)
  rw [htake] at hbytes hlt
  rw [← h, uint64BytesBE, UInt64.toNat_ofNat_of_lt' hlt, hbytes]

/-! ## The record that is written -/

namespace Processor

variable {p : Processor} {s s' : StateDB} {caller toAddr : Address} {value : ℤ} {txHash : Hash}
  {ret : Bytes} {op : DepositOp}

/-- The record belongs to the creator, unless another validator's record is stored there. -/
theorem address_of_depositRecord {v : Validator} (h : p.depositRecord s op = .ok v)
    (hc : s.getCode op.creatorAddress = [] ∨ HoldsRecord p.codec s op.creatorAddress) :
    v.address = op.creatorAddress := by
  rcases depositRecord_eq_ok h with ⟨-, hfresh⟩ | ⟨hget, -⟩
  · rw [freshRecord_eq_ok hfresh]
    rfl
  · rcases hc with hnil | ⟨w, hw, haddr⟩
    · rw [getValidator, if_pos hnil] at hget
      cases hget
    · rw [hw, Except.ok.injEq] at hget
      rw [← hget, haddr]

/-- The code of all accounts after a deposit. -/
theorem getCode_of_validatorDeposit
    (h : p.validatorDeposit s caller toAddr value op txHash = .ok (ret, s'))
    (hc : s.getCode op.creatorAddress = [] ∨ HoldsRecord p.codec s op.creatorAddress) :
    ∃ v bin n, v.address = op.creatorAddress ∧ p.codec.marshal v = .ok bin ∧
      getDepositCount (s.setCode op.creatorAddress bin) p.validatorsStateAddress = .ok n ∧
      ∀ a, s'.getCode a =
        if a = p.validatorsStateAddress then
          withDepositCount (s.setCode op.creatorAddress bin) p.validatorsStateAddress (n + 1)
        else if a = op.creatorAddress then bin else s.getCode a := by
  obtain ⟨-, -, v, bin, n, log, hv, -, hbin, hn, rfl⟩ := validatorDeposit_eq_ok h
  have haddr := address_of_depositRecord hv hc
  rw [address_depositedRecord, haddr] at hn
  refine ⟨_, bin, n, (address_depositedRecord v).trans haddr, hbin, hn, fun a => ?_⟩
  simp [getCode_setCode, haddr]

/-! ## The frame -/

theorem depositFrame_of_own (h : p.validatorDeposit s caller toAddr value op txHash = .ok (ret, s'))
    (hne : op.creatorAddress ≠ p.validatorsStateAddress)
    (hc : s.getCode op.creatorAddress = [] ∨ HoldsRecord p.codec s op.creatorAddress) :
    DepositFrame p s s' op.creatorAddress := by
  obtain ⟨v, bin, n, -, -, hn, hcode⟩ := getCode_of_validatorDeposit h hc
  have hsame : (s.setCode op.creatorAddress bin).getCode p.validatorsStateAddress =
      s.getCode p.validatorsStateAddress := by
    rw [getCode_setCode, if_neg hne.symm]
  have hstate : s'.getCode p.validatorsStateAddress =
      uint64BytesBE (n + 1) ++ (s.getCode p.validatorsStateAddress).drop 8 := by
    rw [hcode, if_pos rfl, withDepositCount, hsame]
  rw [getDepositCount_congr hsame] at hn
  constructor
  · intro a ha hstateAddr
    rw [hcode, if_neg hstateAddr, if_neg ha]
  · exact hc
  · exact ⟨n, hn, getDepositCount_of_getCode hstate⟩
  · rw [hstate, drop_left' (length_uint64BytesBE _)]
  · rintro (heq | ⟨hcode, hno⟩)
    · exact absurd heq hne
    · exact absurd hc (not_or.2 ⟨hcode, hno⟩)

theorem creator_ne_of_depositFrame (hcodec : p.codec = .binary)
    (h : p.validatorDeposit s caller toAddr value op txHash = .ok (ret, s'))
    (hframe : DepositFrame p s s' op.creatorAddress) :
    op.creatorAddress ≠ p.validatorsStateAddress := by
  intro heq
  obtain ⟨v, bin, n, haddr, hbin, hn, hcode⟩ := getCode_of_validatorDeposit h hframe.creatorBefore
  rw [heq] at hn haddr
  obtain ⟨hlen, htake⟩ := take_of_marshalBinary (hcodec ▸ hbin)
  have hself : (s.setCode p.validatorsStateAddress bin).getCode p.validatorsStateAddress = bin :=
    getCode_setCode_self bin
  have hbinNe : bin ≠ [] := by
    rintro rfl
    simp at hlen
  -- the record starts with the count that was read from it
  have hcount : bin.take 8 = uint64BytesBE n := by
    have := uint64BytesBE_of_getDepositCount (by rwa [hself]) hn
    rwa [hself] at this
  have hkept := hframe.notOverwritten (.inl heq)
  rw [hcode, if_pos heq, withDepositCount, heq, hself] at hkept
  have hafter : (s.getCode p.validatorsStateAddress).take 8 = uint64BytesBE (n + 1) := by
    rw [← hkept, take_left' (length_uint64BytesBE _)]
  have hbefore : (s.getCode p.validatorsStateAddress).take 20 = p.validatorsStateAddress.bytes := by
    rcases hframe.creatorBefore with hnil | ⟨w, hw, hwaddr⟩
    · rw [heq] at hnil
      rw [hnil] at hafter
      cases hafter
    · rw [heq] at hw hwaddr
      rw [hcodec] at hw
      rw [(address_of_unmarshalBinary (getValidator_eq_ok.1 hw).2).2, hwaddr]
  have hprefix : (s.getCode p.validatorsStateAddress).take 8 = bin.take 8 := by
    have h8 : ∀ b : Bytes, b.take 8 = (b.take 20).take 8 := fun b => by
      rw [take_take]
      rfl
    rw [h8, hbefore, h8 bin, htake, haddr]
  rw [hafter, hcount] at hprefix
  exact absurd (uint64BytesBE_inj hprefix) (by simp)

/-- A decodable record carries the address of its account exactly if the code starts with
    that address. -/
theorem holdsRecord_iff : HoldsRecord .binary s a ↔
      s.isValidatorAddress a ∧ ∃ v, getValidator .binary s a = .ok v := by
  constructor
  · rintro ⟨v, hv, rfl⟩
    have htake := address_of_unmarshalBinary (getValidator_eq_ok.1 hv).2
    exact ⟨by simpa [isValidatorAddress] using htake, v, hv⟩
  · rintro ⟨haddr, v, hv⟩
    have htake := (address_of_unmarshalBinary (getValidator_eq_ok.1 hv).2).2
    have hself : (s.getCode a).take 20 = a.bytes := by
      simp only [isValidatorAddress, decide_eq_true_eq] at haddr
      exact haddr.2
    refine ⟨v, hv, ?_⟩
    rw [← addressOfBytes_bytes v.address, ← htake, hself, addressOfBytes_bytes]

/-- A successful deposit keeps its frame exactly if its creator is not the validators'
    account and has no code, or readable code that starts with its own address. -/
theorem validatorDeposit_frame_iff (p : Processor) (hcodec : p.codec = .binary)
    (s s' : StateDB) (caller toAddr : Address) (value : ℤ) (op : DepositOp) (txHash : Hash)
    (ret : Bytes) (h : p.validatorDeposit s caller toAddr value op txHash = .ok (ret, s')) :
    DepositFrame p s s' op.creatorAddress ↔
      op.creatorAddress ≠ p.validatorsStateAddress ∧
      (s.getCode op.creatorAddress = [] ∨
        s.isValidatorAddress op.creatorAddress ∧
          ∃ v, getValidator p.codec s op.creatorAddress = .ok v) := by
  have hholds : HoldsRecord p.codec s op.creatorAddress ↔ s.isValidatorAddress op.creatorAddress ∧
      ∃ v, getValidator p.codec s op.creatorAddress = .ok v := by
    rw [hcodec]
    exact holdsRecord_iff
  constructor
  · intro hframe
    exact ⟨creator_ne_of_depositFrame hcodec h hframe, hframe.creatorBefore.imp_right hholds.1⟩
  · rintro ⟨hne, hc⟩
    exact depositFrame_of_own h hne (hc.imp_right hholds.2)

end Processor

/-! ## Deposits inside and outside the frame -/

def depositFor (creator : Address) : DepositOp := ⟨7, creator, 3, 9, none⟩

/-- A depositor with 100 wat, and one account with code. -/
def depositState (a : Address) (code : Bytes) : StateDB :=
  (StateDB.empty.setCode a code).addBalance 1 (100 * bigWat)

/-- The deposit of 10 wat. -/
def depositRun (s : StateDB) (creator : Address) : Except ValError (Bytes × StateDB) :=
  Processor.devnet.validatorDeposit s 1 0xFFFF (10 * bigWat) (depositFor creator) 5

/-- A deposit for a creator without code keeps the frame. -/
theorem validatorDeposit_frame_fresh :
    ∃ ret s', depositRun (depositState 0xFFFF (uint64BytesBE 4)) 12 = .ok (ret, s') ∧
      DepositFrame Processor.devnet (depositState 0xFFFF (uint64BytesBE 4)) s' 12 := by
  have hok : (depositRun (depositState 0xFFFF (uint64BytesBE 4)) 12).toOption.any (fun _ => true) =
      true := by decide
  obtain ⟨⟨ret, s'⟩, h, -⟩ := any_toOption.1 hok
  exact ⟨ret, s', h, (Processor.validatorDeposit_frame_iff Processor.devnet rfl _ _ _ _ _ _ _ _ h).2
    ⟨by decide, .inl (by decide)⟩⟩

/-- A deposit overwrites the code of a contract, and one that names the validators' account
    overwrites the validators' list. -/
theorem validatorDeposit_overwrites :
    (∃ ret s', depositRun (depositState 0xC0DE (List.replicate 32 0xFF)) 0xC0DE = .ok (ret, s') ∧
      s'.getCode 0xC0DE ≠ List.replicate 32 0xFF ∧
      ¬ DepositFrame Processor.devnet (depositState 0xC0DE (List.replicate 32 0xFF)) s' 0xC0DE) ∧
    (∃ ret s', depositRun (depositState 0xFFFF (uint64BytesBE 1 ++ Address.bytes 42)) 0xFFFF =
        .ok (ret, s') ∧
      42 ∉ getValidatorsList s' 0xFFFF ∧
      ¬ DepositFrame Processor.devnet
        (depositState 0xFFFF (uint64BytesBE 1 ++ Address.bytes 42)) s' 0xFFFF) := by
  constructor
  · have hok : (depositRun (depositState 0xC0DE (List.replicate 32 0xFF)) 0xC0DE).toOption.any
        (fun r => r.2.getCode 0xC0DE ≠ List.replicate 32 0xFF) = true := by decide
    obtain ⟨⟨ret, s'⟩, h, hcode⟩ := any_toOption.1 hok
    refine ⟨ret, s', h, by simpa using hcode, fun hframe => ?_⟩
    have hunreadable : ((getValidator .binary (depositState 0xC0DE (List.replicate 32 0xFF))
        0xC0DE).toOption.any fun _ => true) = false := by decide
    rcases hframe.creatorBefore with hnil | ⟨v, hv, -⟩
    · exact absurd hnil (by decide)
    · have hread := (any_toOption (q := fun _ => true)).2 ⟨v, hv, rfl⟩
      exact absurd (hunreadable.symm.trans hread) (by simp)
  · have hok : (depositRun (depositState 0xFFFF (uint64BytesBE 1 ++ Address.bytes 42))
        0xFFFF).toOption.any (fun r => 42 ∉ getValidatorsList r.2 0xFFFF) = true := by
      decide +kernel
    obtain ⟨⟨ret, s'⟩, h, hlist⟩ := any_toOption.1 hok
    refine ⟨ret, s', h, by simpa using hlist, fun hframe => ?_⟩
    exact Processor.creator_ne_of_depositFrame rfl h hframe rfl

end Gwat
