/-
  The coins of a purchase.
-/
import Gwat.Token.Replay

namespace Gwat.Token

open GoLib ByteProg Act Function Processor

variable {p : Processor} {op : CreateOp} {caller token : Address} {H : List Done} {s s' : StateDB}
  {m m' : Mem} {value fee : ℤ} {st : Storage} {tokenId newCost : Option ℤ}

/-! ## What the token records of a sale -/

/-- What a buyer pays, and to whom. -/
structure Sale where
  seller : Address
  minter : Address
  price : ℤ

def TokenId.ofInt (v : ℤ) : TokenId := Fin.ofNat _ v.toNat

@[simp] theorem TokenId.ofInt_toNat (id : TokenId) : ofInt id.toNat = id := by
  exact Fin.ext (Nat.mod_eq_of_lt id.2)

/-- A unit of a WRC-20 token is sold by the creator of the token, an id of a WRC-721 token by
    its owner. -/
def Processor.saleOf (p : Processor) (op : CreateOp) (m : Mem) (value : ℤ) (tokenId : Option ℤ) :
    Sale :=
  match op.kind with
  | .wrc20 _ _ => ⟨creatorOf op m, creatorOf op m, value - value % unitPriceOf op m⟩
  | .wrc721 _ _ =>
    ⟨(p.nfts m).owner (.ofInt (tokenId.getD 0)), minterOf op m,
      (p.nfts m).price (.ofInt (tokenId.getD 0))⟩

/-- The buyer pays the price, which the seller and the minter share; no account gets negative. -/
structure Fair (s s' : StateDB) (buyer : Address) (value : ℤ) (sale : Sale) : Prop where
  price_le_value : sale.price ≤ value
  covered : sale.price ≤ s.getBalance buyer
  shared : ∃ toSeller toMinter : ℤ, 0 ≤ toSeller ∧ 0 ≤ toMinter ∧
    toSeller + toMinter = sale.price ∧
    ∀ a, s'.getBalance a = s.getBalance a - (if a = buyer then sale.price else 0) +
      (if a = sale.seller then toSeller else 0) + if a = sale.minter then toMinter else 0
  nonneg : (∀ a, 0 ≤ s.getBalance a) → ∀ a, 0 ≤ s'.getBalance a

/-- The seller is the minter, or the fee is not more than the price. -/
def FeeBounded (kind : CreateKind) (sale : Sale) : Prop :=
  match kind with
  | .wrc20 _ _ => True
  | .wrc721 _ percentFee => sale.seller = sale.minter ∨
      percentFee.toNat * sale.price < 100 * (sale.price + 1)

/-! ## The payment -/

theorem feeOf_zero (minter : Option Address) (owner : Address) (v : ℤ) :
    feeOf minter owner v 0 = 0 := by
  cases minter <;> simp [feeOf]

theorem feeOf_receiver (minter owner : Address) (v : ℤ) (percentFee : UInt8) :
    feeOf (if 0 < percentFee then some minter else none) owner v percentFee =
      if owner = minter then 0 else percentFee.toNat * v / 100 := by
  split_ifs with hpos hown hown
  · simp [feeOf, hown]
  · simp [feeOf, hown]
  · rfl
  · have hzero : percentFee.toNat = 0 := Nat.le_zero.1 (Nat.not_lt.1 hpos)
    simp [feeOf, hzero]

theorem payment_bounds {n : ℕ} (h : (n : ℤ) ≤ value) :
    0 ≤ value - value % n ∧ value - value % n ≤ value := by
  have hvalue : 0 ≤ value := by omega
  have hunits : 0 ≤ (n : ℤ) * (value / n) :=
    mul_nonneg (Int.natCast_nonneg n) (Int.ediv_nonneg hvalue (Int.natCast_nonneg n))
  have hdiv := Int.mul_ediv_add_emod value n
  have hnonneg : 0 ≤ value % n := by
    rcases eq_or_ne n 0 with rfl | hne
    · rwa [Nat.cast_zero, Int.emod_zero]
    · exact Int.emod_nonneg _ (Int.natCast_ne_zero.2 hne)
  omega

theorem fair_iff_of_paid {minter : Option Address} {sale : Sale}
    (hpaid : Paid s s' caller sale.seller minter sale.price fee) (hvalue : sale.price ≤ value)
    (hminter : fee ≠ 0 → minter = some sale.minter) (hfee : 0 ≤ fee)
    (hown : sale.seller = sale.minter → fee = 0) (hprice : 0 ≤ sale.price) :
    Fair s s' caller value sale ↔ fee ≤ sale.price := by
  have hbalance : ∀ a, s'.getBalance a = s.getBalance a - (if a = caller then sale.price else 0) +
      (if a = sale.seller then sale.price - fee else 0) +
      if a = sale.minter then fee else 0 := by
    intro a
    rw [hpaid.balance a]
    by_cases hzero : fee = 0
    · simp [hzero]
    · rw [hminter hzero]
      simp [eq_comm]
  constructor
  · rintro ⟨-, -, ⟨toSeller, toMinter, hseller, hminter, hsum, hshared⟩, -⟩
    by_cases hown' : sale.seller = sale.minter
    · rw [hown hown']
      exact hprice
    · -- the minter is not the seller, so the balance of the minter tells the fee
      have heq := (hbalance sale.minter).symm.trans (hshared sale.minter)
      rw [if_neg (Ne.symm hown'), if_neg (Ne.symm hown'), if_pos rfl, if_pos rfl] at heq
      omega
  · intro hle
    refine ⟨hvalue, hpaid.covered, ⟨sale.price - fee, fee, by omega, hfee, by omega, hbalance⟩, ?_⟩
    intro hnonneg a
    have hcovered := hpaid.covered
    have ha := hnonneg a
    rw [hbalance a]
    by_cases hcaller : a = caller
    · subst hcaller
      split_ifs <;> omega
    · split_ifs <;> omega

theorem call_buy_eq_ok {ret : Bytes}
    (h : p.call s caller token value (.buy tokenId newCost) = (.ok ret, s')) :
    ∃ r : Storage × Processor.Purchase,
      (p.buyStorage caller value tokenId newCost).run storageArray (storageBytes s token) =
        .ok (r, storageBytes s' token) ∧ ∃ minter, (r.2.paymentValue ≠ 0 →
          (feeReceiver r.1 r.2.percentFee).run storageArray (storageBytes s' token) =
            .ok (minter, storageBytes s' token)) ∧
        Paid s s' caller r.2.transferFrom minter r.2.paymentValue
          (feeOf minter r.2.transferFrom r.2.paymentValue r.2.percentFee) := by
  have hperform : p.perform s caller token value (.buy tokenId newCost) = (.ok ret, s') := h
  obtain ⟨j', rfl, hexec⟩ := perform_eq_ok hperform
  obtain ⟨r, -, hrun, -, minter, hminter, hpaid⟩ := buy_eq_ok hexec
  rw [storageBytes_setNonce] at hrun
  refine ⟨r, hrun, minter, hminter, ?_, fun a => ?_⟩
  · exact hpaid.covered.trans_eq (congrFun (getBalance_setNonce s _ _) _)
  · rw [hpaid.balance a]
    simp

section
variable {baseURI : Bytes} {percentFee decimals : UInt8} {tokenId newCost : Option ℤ} {ret : Bytes}
  (hp : p.NoCollision)
include hp

theorem fair_of_wrc20 {totalSupply : ℤ} (hkind : op.kind = .wrc20 decimals totalSupply)
    (h : TokenRun p op token H s)
    (hbuy : p.call s caller token value (.buy tokenId newCost) = (.ok ret, s')) :
    Fair s s' caller value (p.saleOf op (storageBytes s token) value tokenId) := by
  obtain ⟨⟨st, purchase⟩, hrun, minter, -, hpaid⟩ := call_buy_eq_ok hbuy
  obtain ⟨-, n, rfl, hle, -⟩ :=
    (buyStorage_wrc20 _ hp (h.laid_wrc20 hp hkind) hkind).2 _ _ hrun
  have hsale : p.saleOf op (storageBytes s token) value tokenId =
      ⟨creatorOf op (storageBytes s token), creatorOf op (storageBytes s token),
        value - value % unitPriceOf op (storageBytes s token)⟩ := by
    simp only [saleOf, hkind]
  obtain ⟨hnonneg, hvalue⟩ := payment_bounds hle
  rw [feeOf_zero] at hpaid
  rw [hsale]
  exact (fair_iff_of_paid hpaid hvalue (fun hne => absurd rfl hne) le_rfl (fun _ => rfl) hnonneg).2
    hnonneg

theorem paid_wrc721 (hkind : op.kind = .wrc721 baseURI percentFee) (h : TokenRun p op token H s)
    (hdec : (TokenOp.buy tokenId newCost).Decoded)
    (hbuy : p.call s caller token value (.buy tokenId newCost) = (.ok ret, s')) :
    ∃ id : TokenId, tokenId = some (id.toNat : ℤ) ∧
      ((p.nfts (storageBytes s token)).price id : ℤ) ≤ value ∧
      Paid s s' caller ((p.nfts (storageBytes s token)).owner id)
        (if 0 < percentFee then some (minterOf op (storageBytes s token)) else none)
        ((p.nfts (storageBytes s token)).price id)
        (if (p.nfts (storageBytes s token)).owner id = minterOf op (storageBytes s token) then 0
          else percentFee.toNat * (p.nfts (storageBytes s token)).price id / 100) := by
  obtain ⟨⟨st, purchase⟩, hrun, minter, hminter, hpaid⟩ := call_buy_eq_ok hbuy
  obtain ⟨hlaid, hfee⟩ := h.fields_wrc721 hp hkind
  obtain ⟨hst, id, rfl, rfl, hsame, hstep⟩ :=
    (buyStorage_wrc721 _ hp hlaid hkind hdec.1 hdec.2).1.2 _ _ hrun
  obtain ⟨hforSale, hvalue, -⟩ := (hstep.inv id).2.2.2.2 _ rfl
  have hreceiver : minter = if 0 < percentFee then some (minterOf op (storageBytes s token))
      else none := by
    have hread := hminter (Int.natCast_ne_zero.2 hforSale)
    rw [run_feeReceiver hkind hst, hsame.minterOf hkind, hfee] at hread
    exact (Prod.mk.inj (Except.ok.inj hread)).1.symm
  rw [hfee, hreceiver, feeOf_receiver] at hpaid
  exact ⟨id, rfl, hvalue, hpaid⟩

theorem fair_iff_of_wrc721 (hkind : op.kind = .wrc721 baseURI percentFee)
    (h : TokenRun p op token H s) (hdec : (TokenOp.buy tokenId newCost).Decoded)
    (hbuy : p.call s caller token value (.buy tokenId newCost) = (.ok ret, s')) :
    Fair s s' caller value (p.saleOf op (storageBytes s token) value tokenId) ↔
      FeeBounded op.kind (p.saleOf op (storageBytes s token) value tokenId) := by
  obtain ⟨id, rfl, hvalue, hpaid⟩ := paid_wrc721 hp hkind h hdec hbuy
  have hsale : p.saleOf op (storageBytes s token) value (some (id.toNat : ℤ)) =
      ⟨(p.nfts (storageBytes s token)).owner id, minterOf op (storageBytes s token),
        (p.nfts (storageBytes s token)).price id⟩ := by
    simp [saleOf, hkind]
  rw [hsale]
  have hprice : (0 : ℤ) ≤ (p.nfts (storageBytes s token)).price id := Int.natCast_nonneg _
  have hpart : 0 ≤ (percentFee.toNat : ℤ) * (p.nfts (storageBytes s token)).price id :=
    mul_nonneg (Int.natCast_nonneg _) hprice
  simp only [hkind, FeeBounded]
  by_cases hown : (p.nfts (storageBytes s token)).owner id = minterOf op (storageBytes s token)
  · rw [if_pos hown] at hpaid
    rw [fair_iff_of_paid hpaid hvalue (fun hne => absurd rfl hne) le_rfl (fun _ => rfl) hprice]
    exact ⟨fun _ => .inl hown, fun _ => hprice⟩
  · rw [if_neg hown] at hpaid
    have hminter' : (percentFee.toNat : ℤ) * (p.nfts (storageBytes s token)).price id / 100 ≠ 0 →
        (if 0 < percentFee then some (minterOf op (storageBytes s token)) else none) =
          some (minterOf op (storageBytes s token)) := by
      intro hne
      refine if_pos (Nat.pos_of_ne_zero fun hzero => hne ?_)
      rw [show percentFee.toNat = 0 from hzero]
      simp
    rw [fair_iff_of_paid hpaid hvalue hminter' (Int.ediv_nonneg hpart (by norm_num))
      (fun heq => absurd heq hown) hprice]
    simp only [hown, false_or]
    omega

end

/-- A purchase is fair exactly when the token is a WRC-20 token, the minter sells, or the fee is
    not more than the price. -/
theorem fair_iff {tokenId newCost : Option ℤ} {ret : Bytes} (hp : p.NoCollision)
    (h : TokenRun p op token H s) (hdec : (TokenOp.buy tokenId newCost).Decoded)
    (hbuy : p.call s caller token value (.buy tokenId newCost) = (.ok ret, s')) :
    Fair s s' caller value (p.saleOf op (storageBytes s token) value tokenId) ↔
      FeeBounded op.kind (p.saleOf op (storageBytes s token) value tokenId) := by
  cases hkind : op.kind with
  | wrc20 decimals totalSupply =>
    exact ⟨fun _ => trivial, fun _ => fair_of_wrc20 hp hkind h hbuy⟩
  | wrc721 baseURI percentFee =>
    rw [← hkind]
    exact fair_iff_of_wrc721 hp hkind h hdec hbuy

/-- With a fee of 10 percent, the owner gets 90 of 100 coins. -/
theorem fair_with_small_fee : ∃ s₃ s₄, ∃ ret,
    Processor.spaced.call s₃ 3 1001 100 (.buy (some 5) (some 0)) = (.ok ret, s₄) ∧
      Fair s₃ s₄ 3 100
        (Processor.spaced.saleOf (collection 10) (storageBytes s₃ 1001) 100 (some 5)) := by
  obtain ⟨s₁, s₂, s₃, s₄, m, ret, hrun, hcall, hstorage, -, -, hnfts⟩ :=
    @exists_soldRun withCoins 10 rfl rfl (by decide)
  refine ⟨s₃, s₄, ret, hcall, (fair_iff noCollision_spaced hrun ?_ hcall).2 (.inr ?_)⟩
  · exact ⟨fun t ht => Option.some.inj ht ▸ (by decide), fun c hc => Option.some.inj hc ▸ le_rfl⟩
  · have hsale : (Processor.spaced.saleOf (collection 10) (storageBytes s₃ 1001) 100
        (some 5)).price = 100 := by
      rw [hstorage]
      exact congrArg Nat.cast (congrFun (congrArg Nfts.price hnfts) idFive)
    rw [hsale]
    decide

/-- With a fee of 200 percent, the owner that sells for 100 coins loses 100 coins. -/
theorem unfair_with_large_fee : ∃ s₃ s₄, ∃ ret,
    Processor.spaced.call s₃ 3 1001 100 (.buy (some 5) (some 0)) = (.ok ret, s₄) ∧
      (∀ a, 0 ≤ s₃.getBalance a) ∧ s₄.getBalance 2 = -100 ∧
      ¬ Fair s₃ s₄ 3 100
        (Processor.spaced.saleOf (collection 200) (storageBytes s₃ 1001) 100 (some 5)) := by
  obtain ⟨s₁, s₂, s₃, s₄, m, ret, hrun, hcall, rfl, hbal, hminter, hnfts⟩ :=
    @exists_soldRun withCoins 200 rfl rfl (by decide)
  have hnonneg : ∀ a, 0 ≤ s₃.getBalance a := by
    intro a
    rw [hbal, withCoins, StateDB.getBalance_addBalance, show StateDB.empty.getBalance a = 0 from rfl]
    split_ifs <;> decide
  obtain ⟨id, hid, -, hpaid⟩ := paid_wrc721 noCollision_spaced rfl hrun
    ⟨fun t ht => Option.some.inj ht ▸ (by decide), fun c hc => Option.some.inj hc ▸ le_rfl⟩ hcall
  obtain rfl : idFive = id := TokenId.toNat_inj.1 (Int.ofNat_inj.1 (Option.some.inj hid))
  have howner : (Processor.spaced.nfts (storageBytes s₃ 1001)).owner idFive = 2 := by simp [hnfts]
  have hprice : (Processor.spaced.nfts (storageBytes s₃ 1001)).price idFive = 100 := by
    simp [hnfts]
  have hseller : s₄.getBalance 2 = -100 := by
    rw [hpaid.balance, hbal, howner, hminter, hprice]
    decide
  refine ⟨s₃, s₄, ret, hcall, hnonneg, hseller, fun hfair => ?_⟩
  have hloss := hfair.nonneg hnonneg 2
  rw [hseller] at hloss
  exact absurd hloss (by decide)

end Gwat.Token
