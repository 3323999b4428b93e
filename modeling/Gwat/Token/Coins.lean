/-
  WRC-20 tokens: what the operations do to the balances.
-/
import Gwat.Token.Effects

namespace Gwat.Token

open GoLib ByteProg Processor

variable {op : CreateOp} {m m' : Mem} {st : Storage} {p : Processor}

/-- A `Transfer` event; the value is an amount or an id. -/
structure Transfer where
  src : Address
  dst : Address
  value : ℕ
  deriving DecidableEq

/-- The balances of a WRC-20 token. -/
abbrev Coins := Address → ℕ

/-- What an operation of `caller` does to the balances of a WRC-20 token, with the transfers
    that it reports. -/
inductive Coins.Step (caller : Address) (value : ℤ) (creator : Address) (unitPrice : ℕ) :
    TokenOp → Coins → List Transfer → Coins → Prop where
  | transfer {std : Std} {dst : Address} {n : ℕ} {c : Coins} : n ≤ c caller →
      Step caller value creator unitPrice (.transfer std dst n) c [⟨caller, dst, n⟩]
        (move c caller dst n)
  | transferFrom {std : Std} {src dst : Address} {n : ℕ} {c : Coins} : n ≤ c src →
      Step caller value creator unitPrice (.transferFrom std src dst n) c [⟨src, dst, n⟩]
        (move c src dst n)
  | buy {tokenId newCost : Option ℤ} {n : ℕ} {c : Coins} : unitPrice ≠ 0 →
      (n : ℤ) = value / unitPrice → n ≤ c creator →
      Step caller value creator unitPrice (.buy tokenId newCost) c [⟨creator, caller, n⟩]
        (move c creator caller n)
  | approve {std : Std} {spender : Address} {v : ℤ} {c : Coins} :
      Step caller value creator unitPrice (.approve std spender v) c [] c
  | setPrice {tokenId : Option ℤ} {v : ℤ} {c : Coins} : caller = creator →
      Step caller value creator unitPrice (.setPrice tokenId v) c [] c
  | query {c : Coins} : Step caller value creator unitPrice .query c [] c

theorem Coins.Step.covered {caller creator : Address} {value : ℤ} {unitPrice : ℕ} {o : TokenOp}
    {c c' : Coins} {ts : List Transfer} (h : Coins.Step caller value creator unitPrice o c ts c') :
    ∀ t ∈ ts, t.value ≤ c t.src := by
  cases h with
  | transfer hle | transferFrom hle | buy _ _ hle => exact List.forall_mem_singleton.2 hle
  | _ => exact nofun

/-! ## The fields and maps of a WRC-20 token -/

section
variable {decimals : UInt8} {totalSupply : ℤ} (hkind : op.kind = .wrc20 decimals totalSupply)
include hkind

variable {β : Type} {f : ℕ → StorageProg β} {owner spender : Address}

theorem standard_wrc20 : op.kind.standard = stdWRC20 := by rw [hkind]; rfl

theorem ofKind_allowance (pair : Hash) : (MapKey.allowance pair).OfKind op.kind := by
  rw [hkind]
  trivial

theorem mem_descriptors_wrc20 {fd : FieldDescriptor}
    (h : fd ∈ kindDescriptors (.wrc20 decimals totalSupply)) : fd ∈ descriptors op :=
  List.mem_append_right _ (hkind ▸ h)

theorem names_wrc20 : (descriptors op).map FieldDescriptor.name = [standardField, nameField,
    symbolField, balancesField, creatorField, decimalsField, totalSupplyField, allowancesField,
    costField] := by
  rw [descriptors, hkind]
  rfl

theorem readCreator_bind {f : Address → StorageProg β} (hst : Fields op st) :
    (readAddress st creatorField >>= f).run storageArray m =
      (f (creatorOf op m)).run storageArray m :=
  readAddress_bind hst (mem_descriptors_wrc20 hkind (by simp [kindDescriptors])) (by decide)

theorem readCost_bind (hst : Fields op st) :
    (st.readField Encoding.decodeUint256 costField >>= f).run storageArray m =
      (f (unitPriceOf op m)).run storageArray m := by
  have hlt := natOfBytes_lt (m.read (fieldOffset op costField) 32)
  refine readField_bind ⟨costField, .scalar uint256Type⟩ hst
    (mem_descriptors_wrc20 hkind (by simp [kindDescriptors])) (by decide : costField ≠ standardField)
    (fun _ _ => rfl) (by decide) ?_
  exact congrArg Except.ok (Nat.mod_eq_of_lt (lt_of_lt_of_eq hlt (by norm_num)))

theorem readAllowance_bind (hst : Fields op st) :
    (p.readUint256 st allowancesField (p.pairKey owner spender) >>= f).run storageArray m =
      (f (natOfBytes (p.cell m (.allowance (p.keccak256 (owner.bytes ++ spender.bytes)))))).run
        storageArray m :=
  readUint256_bind (.allowance _) hst (ofKind_allowance hkind _) rfl rfl nofun

theorem writeAllowance_bind {f : Unit → StorageProg β} {n : ℕ} (hp : p.NoCollision)
    (h : Laid op m) (hst : Fields op st) : ∃ m₁, Laid op m₁ ∧ p.balanceOf m₁ = p.balanceOf m ∧
      (p.writeToMap st allowancesField (p.pairKey owner spender) (.uint256 n) >>= f).run
        storageArray m = (f ()).run storageArray m₁ := by
  refine ⟨_, laid_put hp h, balanceOf_congr fun a => ?_,
    putToMap_bind (.allowance (p.keccak256 (owner.bytes ++ spender.bytes))) hp hst
      (ofKind_allowance hkind _) rfl nofun (length_bytesBE 32 n).le⟩
  exact cell_put_of_ne hp (by simp) (fun hc => hc.2) (length_bytesBE 32 n).le

end

/-! ## The operations on a WRC-20 token -/

/-- The operation did to the balances what `Coins.Step` says, and left the header alone. -/
def CoinStep (p : Processor) (op : CreateOp) (caller : Address) (value : ℤ) (o : TokenOp)
    (ts : List Transfer) (m m' : Mem) : Prop :=
  Laid op m' ∧ Coins.Step caller value (creatorOf op m) (unitPriceOf op m) o (p.balanceOf m) ts
    (p.balanceOf m')

section
variable {decimals : UInt8} {totalSupply : ℤ} (value : ℤ) {caller src dst spender : Address} {std : Std}
  {n : ℕ} (hp : p.NoCollision) (h : Laid op m) (hkind : op.kind = .wrc20 decimals totalSupply)
include hp h hkind

theorem transferStorage_wrc20 :
    Ends (fun _ m' => std = stdWRC20 ∧ n < 2 ^ 256 ∧
        CoinStep p op caller value (.transfer std dst n) [⟨caller, dst, n⟩] m m')
      ((p.transferStorage caller std dst n).run storageArray m) := by
  refine Meets.ends (C := False) (meets_newStorage_bind h False.elim fun st hst hstd => ?_)
  rw [standard_wrc20 hkind] at hstd
  rw [if_pos hstd]
  refine (meets_transferBalance hp hst False.elim).mono ?_
  rintro _ _ ⟨hle, hlt, rfl⟩
  refine ⟨hstd, hle.trans_lt (p.balanceOf_lt m caller), laid_moveBalance hp h, ?_⟩
  rw [balanceOf_moveBalance hp hlt]
  exact .transfer hle

theorem transferFromStorage_wrc20 :
    Ends (fun _ m' => std = stdWRC20 ∧ n < 2 ^ 256 ∧
        CoinStep p op caller value (.transferFrom std src dst n) [⟨src, dst, n⟩] m m')
      ((p.transferFromStorage caller std src dst n).run storageArray m) := by
  refine Meets.ends (C := False) (meets_newStorage_bind h False.elim fun st hst hstd => ?_)
  rw [standard_wrc20 hkind] at hstd
  rw [if_pos hstd, wrc20SpendAllowance]
  simp only [bind_assoc]
  rw [readAllowance_bind hkind hst]
  refine meets_check_bind (by simp) False.elim fun _ => ?_
  obtain ⟨m₁, hlaid, hbal, hwrite⟩ := writeAllowance_bind hkind hp h hst
  rw [hwrite]
  refine (meets_transferBalance hp hst False.elim).mono ?_
  rintro _ _ ⟨hle, hlt, rfl⟩
  refine ⟨hstd, hle.trans_lt (p.balanceOf_lt m₁ src), laid_moveBalance hp hlaid, ?_⟩
  rw [balanceOf_moveBalance hp hlt, hbal]
  exact .transferFrom (hbal ▸ hle)

theorem approveStorage_wrc20 :
    Ends (fun _ m' => std = stdWRC20 ∧ n < 2 ^ 256 ∧
        CoinStep p op caller value (.approve std spender n) [] m m')
      ((p.approveStorage caller std spender n).run storageArray m) := by
  refine Meets.ends (C := False) (meets_newStorage_bind h False.elim fun st hst hstd => ?_)
  rw [standard_wrc20 hkind] at hstd
  rw [if_pos hstd]
  refine meets_fromBigChecked_bind False.elim fun hn => ?_
  obtain ⟨m₁, hlaid, hbal, hwrite⟩ := writeAllowance_bind hkind hp h hst
  rw [← bind_pure (p.writeToMap _ _ _ _), hwrite]
  refine meets_ok ⟨hstd, hn, hlaid, ?_⟩
  rw [hbal]
  exact .approve

theorem setPriceStorage_wrc20 {tokenId : Option ℤ} {v : ℤ} :
    Ends (fun _ m' => CoinStep p op caller value (.setPrice tokenId v) [] m m')
      ((p.setPriceStorage caller tokenId v).run storageArray m) := by
  refine Meets.ends (C := False) (meets_newStorageWithoutStdCheck_bind h fun st hst => ?_)
  refine meets_ofExcept_bind (avoids_fromBigChecked v) False.elim fun n _ => ?_
  rw [if_pos (standard_wrc20 hkind), readCreator_bind hkind hst]
  refine meets_check_bind nofun False.elim fun hcaller => ?_
  obtain ⟨m₁, hset, hwrite⟩ := run_setField ⟨costField, .scalar uint256Type⟩
    (.uint256 n) hp hst h (mem_descriptors_wrc20 hkind (by simp [kindDescriptors]))
    (by decide : costField ≠ standardField) (fun _ _ => rfl) rfl (length_bytesBE 32 n).le
  rw [hwrite]
  refine meets_ok ⟨hset.laid, ?_⟩
  rw [balanceOf_congr fun a => congrFun hset.cells _]
  exact .setPrice (not_not.1 hcaller)

/-- A purchase is of as many units as the value pays for, at the recorded price. -/
theorem buyStorage_wrc20 {tokenId newCost : Option ℤ} :
    Ends (fun r m' => Fields op r.1 ∧ ∃ n : ℕ,
        r.2 = ⟨stdWRC20, creatorOf op m, n, value - value % unitPriceOf op m, 0⟩ ∧
        (unitPriceOf op m : ℤ) ≤ value ∧
        CoinStep p op caller value (.buy tokenId newCost) [⟨creatorOf op m, caller, n⟩] m m')
      ((p.buyStorage caller value tokenId newCost).run storageArray m) := by
  refine Meets.ends (C := False) (meets_newStorageWithoutStdCheck_bind h fun st hst => ?_)
  change Meets _ _ ((p.purchase st op.kind.standard caller value tokenId newCost >>= _).run
    storageArray m)
  rw [purchase, if_pos (standard_wrc20 hkind), buyWrc20]
  simp only [bind_assoc]
  rw [readCreator_bind hkind hst, readCost_bind hkind hst]
  refine meets_check_bind (by simp) False.elim fun hsale => ?_
  refine meets_check_bind (by simp) False.elim fun hvalue => ?_
  simp only [pure_bind]
  have hpos : (0 : ℤ) < unitPriceOf op m := by exact_mod_cast Nat.pos_of_ne_zero hsale
  have hdiv : (value - value % unitPriceOf op m) / unitPriceOf op m = value / unitPriceOf op m := by
    have hsplit := Int.mul_ediv_add_emod value (unitPriceOf op m)
    rw [show value - value % unitPriceOf op m = unitPriceOf op m * (value / unitPriceOf op m) by
      omega, Int.mul_ediv_cancel_left _ hpos.ne']
  have hquot : 0 ≤ value / unitPriceOf op m := Int.ediv_nonneg (by omega) hpos.le
  obtain ⟨n, hn⟩ := Int.eq_ofNat_of_zero_le hquot
  rw [hdiv, hn]
  refine meets_run_bind (meets_transferBalance hp hst False.elim) ?_
  rintro _ _ ⟨hle, hlt, rfl⟩
  refine meets_ok ⟨hst, n, rfl, by omega, laid_moveBalance hp h, ?_⟩
  rw [balanceOf_moveBalance hp hlt]
  exact .buy hsale hn.symm hle

omit hp
variable {Q : Unit → Mem → Prop}

theorem mintStorage_wrc20 {tokenId : ℤ} {metadata : Bytes} :
    Ends Q ((p.mintStorage caller std dst tokenId metadata).run storageArray m) := by
  refine Meets.ends (C := False) (meets_newStorage_bind h False.elim fun st hst _ => ?_)
  rw [readAddress, bind_assoc, readField_absent hst (by rw [names_wrc20 hkind]; decide)]
  exact meets_error (by simp) id

theorem burnStorage_wrc20 {Q : Address → Mem → Prop} {tokenId : ℤ} :
    Ends Q ((p.burnStorage caller std tokenId).run storageArray m) := by
  refine Meets.ends (C := False) (meets_newStorage_bind h False.elim fun st hst _ => ?_)
  rw [readAddress, bind_assoc, readField_absent hst (by rw [names_wrc20 hkind]; decide)]
  exact meets_error (by simp) id

theorem setApprovalForAllStorage_wrc20 {approved : Bool} :
    Ends Q ((p.setApprovalForAllStorage caller std dst approved).run storageArray m) := by
  refine Meets.ends (C := False) (meets_newStorage_bind h False.elim fun st hst _ => ?_)
  rw [writeToMap_absent hst (by rw [names_wrc20 hkind]; decide)]
  exact meets_error nofun id

end

end Gwat.Token
