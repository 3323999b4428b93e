/-
  Who owns the ids of a WRC-721 token, and who counts as their owner.
-/
import Gwat.Token.Progress

namespace Gwat.Token

open GoLib ByteProg Function List TokenOp Processor StateDB

variable {p : Processor} {op : CreateOp} {token : Address} {H : List Done} {s : StateDB}

/-! ## Operations on an id -/

/-- The id that the operation moves from one owner to another. -/
def TokenOp.moved : TokenOp → Option ℤ
  | .transferFrom _ _ _ tokenId => some tokenId
  | .buy tokenId _ => tokenId
  | _ => none

/-- The id to which the operation gives an owner. -/
def TokenOp.acquired : TokenOp → Option ℤ
  | .mint _ _ tokenId _ => some tokenId
  | o => o.moved

/-- The id that the operation burns. -/
def TokenOp.burned : TokenOp → Option ℤ
  | .burn _ tokenId => some tokenId
  | _ => none

/-- The tokens before and after a call. -/
def Done.nftsBefore (d : Done) (p : Processor) (token : Address) : Nfts :=
  p.nfts (storageBytes d.before token)

@[inherit_doc Done.nftsBefore]
def Done.nftsAfter (d : Done) (p : Processor) (token : Address) : Nfts :=
  p.nfts (storageBytes d.after token)

/-! ## Balances -/

/-- The balance of an account is the number of its ids. -/
def Nfts.Counted (t : Nfts) : Prop := ∀ a, a ≠ 0 → t.balance a = holdings t.owner a

section
variable {caller minter dst : Address} {value : ℤ} {isOperator : Address → Bool} {o : TokenOp}
  {t t' : Nfts} {ts : List Transfer} {id : TokenId}

theorem Nfts.Counted.move {approved : TokenId → Address} {price : TokenId → ℕ} (h : t.Counted)
    (hpos : 1 ≤ t.balance (t.owner id)) :
    Nfts.Counted ⟨update t.owner id dst, move t.balance (t.owner id) dst 1, approved, price⟩ := by
  intro a ha
  have hmove := move_add dst a hpos
  have hcount := holdings_update t.owner id a dst
  have heq := h a ha
  simp only [eq_comm] at hmove hcount ⊢
  omega

theorem Nfts.Step.counted (hstep : Nfts.Step caller value minter isOperator o t ts t')
    (hburn : ∀ id : TokenId, o.burned = some (id.toNat : ℤ) → caller = 0) (h : t.Counted) : t'.Counted := by
  cases hstep with
  | transferFrom _ _ _ hpos => exact h.move hpos
  | buy _ _ _ hpos => exact h.move hpos
  | @mint std dst id metadata t _ hfree =>
    intro a ha
    have hcount := holdings_update t.owner id a dst
    rw [hfree, if_neg (Ne.symm ha)] at hcount
    have heq := h a ha
    simp only [update_apply, @eq_comm _ a dst]
    split_ifs at hcount ⊢ with hdst
    · subst hdst
      omega
    · omega
  | @burn std id t _ _ =>
    intro a ha
    obtain rfl := hburn id rfl
    simpa only [update_of_ne ha] using h a ha
  | _ => exact h

theorem Nfts.Step.owner_ne_zero (hstep : Nfts.Step caller value minter isOperator o t ts t')
    (h : o.moved = some (id.toNat : ℤ)) : t.owner id ≠ 0 := by
  cases hstep <;> simp_all [TokenOp.moved]

theorem Nfts.Step.owner_of_burn (hstep : Nfts.Step caller value minter isOperator o t ts t')
    (h : o.burned = some (id.toNat : ℤ)) : t.owner id = caller ∧ t'.owner id = caller := by
  cases hstep <;> simp_all [TokenOp.burned]

end

/-- The balances count the ids, only ids with an owner change it, and only their owners burn
    ids, which have no owner then. -/
structure CountsNfts (p : Processor) (token : Address) (H : List Done) (s : StateDB) : Prop where
  counted : (p.nfts (storageBytes s token)).Counted
  moved : ∀ d ∈ H, ∀ id : TokenId, d.op.moved = some (id.toNat : ℤ) →
      (d.nftsBefore p token).owner id ≠ 0
  burned : ∀ d ∈ H, ∀ id : TokenId, d.op.burned = some (id.toNat : ℤ) →
    (d.nftsBefore p token).owner id = d.caller ∧ (d.nftsAfter p token).owner id = 0

/-- What every run keeps: ids with owners are moved, and an id keeps its owner when it is
    burned. -/
structure BurnInv (p : Processor) (token : Address) (H : List Done) (t : Nfts) : Prop where
  moved : ∀ d ∈ H, ∀ id : TokenId, d.op.moved = some (id.toNat : ℤ) →
    (d.nftsBefore p token).owner id ≠ 0
  burned : ∀ d ∈ H, ∀ id : TokenId, d.op.burned = some (id.toNat : ℤ) →
    (d.nftsBefore p token).owner id = d.caller ∧ (d.nftsAfter p token).owner id = d.caller
  counted : (∀ d ∈ H, ∀ id : TokenId, d.op.burned = some (id.toNat : ℤ) → d.caller = 0) → t.Counted

section
variable {baseURI : Bytes} {percentFee : UInt8} (hp : p.NoCollision)
  (hkind : op.kind = .wrc721 baseURI percentFee) (h : TokenRun p op token H s)
include hp hkind h

theorem TokenRun.burned : BurnInv p token H (p.nfts (storageBytes s token)) := by
  refine (TokenRun.invariant (I := fun H m => Laid op m ∧ BurnInv p token H (p.nfts m)) ?_ ?_ h).2
  · intro d hcreate _ hrun _
    obtain ⟨hlaid, hnfts, -⟩ := createStorage_nfts hp hkind hrun
    rw [hnfts]
    refine ⟨hlaid, by simp [hcreate, TokenOp.moved], by simp [hcreate, TokenOp.burned],
      fun _ a ha => ?_⟩
    rw [holdings, Finset.filter_false_of_mem fun _ _ => Ne.symm ha, Finset.card_empty]
  · rintro H d ⟨hlaid, hmoved, hburned, hcounted⟩ hdec hhandled
    obtain ⟨hsame, ts, hstep, -⟩ := hhandled.nfts hp hkind hlaid hdec
    refine ⟨hsame.laid hlaid, forall_mem_cons.2 ⟨fun id => hstep.owner_ne_zero, hmoved⟩,
      forall_mem_cons.2 ⟨fun id => hstep.owner_of_burn, hburned⟩, fun hzero => ?_⟩
    obtain ⟨hd, hH⟩ := forall_mem_cons.1 hzero
    exact hstep.counted hd (hcounted hH)

/-- Balances count ids, and burned ids have no owner, exactly as long as nobody but the zero
    address burns ids. -/
theorem countsNfts_iff :
    CountsNfts p token H s ↔ ∀ d ∈ H, ∀ id : TokenId, d.op.burned = some (id.toNat : ℤ) → d.caller = 0 := by
  obtain ⟨hmoved, hburned, hcounted⟩ := h.burned hp hkind
  constructor
  · intro hcounts d hd id hburns
    exact (hburned d hd id hburns).2.symm.trans (hcounts.burned d hd id hburns).2
  · intro hzero
    refine ⟨hcounted hzero, hmoved, fun d hd id hburns => ?_⟩
    obtain ⟨hbefore, hafter⟩ := hburned d hd id hburns
    exact ⟨hbefore, hafter.trans (hzero d hd id hburns)⟩

end

/-- A minted id is counted. -/
theorem minted_counts : ∃ s₀ s₁ s₂,
    TokenRun spaced (collection 0) 1001 [⟨s₁, 1, 0, .mint stdWRC721 1 5 [], s₂⟩,
      ⟨s₀, 1, 0, .create (collection 0), s₁⟩] s₂ ∧
    CountsNfts spaced 1001 [⟨s₁, 1, 0, .mint stdWRC721 1 5 [], s₂⟩,
      ⟨s₀, 1, 0, .create (collection 0), s₁⟩] s₂ := by
  obtain ⟨s₁, s₂, m, hrun, -⟩ :=
    @exists_mintedRun idFive 1 empty 0 rfl rfl
  refine ⟨empty, s₁, s₂, hrun,
    (countsNfts_iff noCollision_spaced rfl hrun).2 fun d hd id hburns => ?_⟩
  simp only [mem_cons, not_mem_nil, or_false] at hd
  rcases hd with rfl | rfl <;> cases hburns

/-- A burned id keeps its owner, and the balance of the owner does not count it. -/
theorem burned_keeps_owner : ∃ s₀ s₁ s₂ s₃,
    TokenRun spaced (collection 0) 1001
      [⟨s₂, 1, 0, .burn stdWRC721 5, s₃⟩, ⟨s₁, 1, 0, .mint stdWRC721 1 5 [], s₂⟩,
        ⟨s₀, 1, 0, .create (collection 0), s₁⟩] s₃ ∧
      (Processor.spaced.nfts (storageBytes s₃ 1001)).owner idFive = 1 ∧
      (Processor.spaced.nfts (storageBytes s₃ 1001)).balance 1 = 0 ∧
      ¬ CountsNfts spaced 1001
        [⟨s₂, 1, 0, .burn stdWRC721 5, s₃⟩, ⟨s₁, 1, 0, .mint stdWRC721 1 5 [], s₂⟩,
          ⟨s₀, 1, 0, .create (collection 0), s₁⟩] s₃ := by
  have hp := noCollision_spaced
  obtain ⟨s₁, s₂, m, hrun, hlive, hlaid, hminter, -, hnfts, -⟩ :=
    @exists_mintedRun idFive 1 empty 0 rfl rfl
  have howner : (Processor.spaced.nfts m).owner idFive = 1 := by simp [hnfts]
  have hbalance : (Processor.spaced.nfts m).balance 1 = 1 := by simp [hnfts]
  obtain ⟨hends, hok⟩ : Meets _ _
      ((Processor.spaced.burnStorage 1 stdWRC721 idFive.toNat).run storageArray m) :=
    burnStorage_wrc721 0 hp hlaid rfl
  obtain ⟨_, m', hburn⟩ := hok ⟨rfl, hminter, hbalance.ge, idFive, rfl, howner⟩
  obtain ⟨ret, s₃, hcall, hlive', -⟩ := call_burn 0 hlive (by decide) hburn
  obtain ⟨-, -, -, -, hstep⟩ := hends.2 _ _ hburn
  have hburned := (hstep.inv idFive).2.1 _ rfl
  refine ⟨empty, s₁, s₂, s₃, .call hrun nofun (by decide : (0 : ℤ) ≤ 5) hcall, ?_, ?_,
    fun hcounts => ?_⟩
  · rw [hlive'.storage, hburned]
    exact howner
  · rw [hlive'.storage, hburned]
    simp only [update_self, hbalance]
    decide
  · have hzero := (hcounts.burned _ mem_cons_self idFive rfl).2
    rw [Done.nftsAfter, hlive'.storage, hburned] at hzero
    exact absurd (howner.symm.trans hzero) (by decide)

/-! ## Approvals and prices -/

/-- `P` happened, and `Q` did not happen after it; the last event is the first of the list. -/
def Since {α : Type} (P Q : α → Prop) : List α → Prop
  | [] => False
  | d :: H => P d ∨ ¬ Q d ∧ Since P Q H

/-- The call approved the id for `spender`, on behalf of its owner. -/
def Done.Grants (d : Done) (p : Processor) (token : Address) (id : TokenId)
    (owner spender : Address) : Prop :=
  (∃ std, d.op = .approve std spender id.toNat) ∧ (d.nftsBefore p token).owner id = owner ∧
    (d.caller = owner ∨ p.isOperator (storageBytes d.before token) owner d.caller = true)

/-- The owner set the price of the id, or paid for the id and set its next price. -/
def Done.Prices (d : Done) (id : TokenId) (owner : Address) (n : ℕ) : Prop :=
  d.caller = owner ∧ (d.op = .setPrice (some (id.toNat : ℤ)) n ∨
    d.op = .buy (some (id.toNat : ℤ)) (some (n : ℤ)))

/-- The call gave the id an owner. -/
def Done.Acquires (id : TokenId) (d : Done) : Prop := d.op.acquired = some (id.toNat : ℤ)

/-- Approvals and prices come from the present owner, since it acquired the id. -/
structure OwnerGrants (p : Processor) (token : Address) (H : List Done) (t : Nfts) : Prop where
  approved : ∀ id, t.approved id ≠ 0 →
    Since (fun d => d.Grants p token id (t.owner id) (t.approved id)) (Done.Acquires id) H
  price : ∀ id, t.price id ≠ 0 →
    Since (fun d => d.Prices id (t.owner id) (t.price id)) (Done.Acquires id) H

/-- The call does not transfer an id that has a price, and if the zero address buys an id, it
    sets no price. -/
def Done.Unpriced (d : Done) (p : Processor) (token : Address) : Prop :=
  (∀ std src dst (id : TokenId), d.op = .transferFrom std src dst id.toNat →
    (d.nftsBefore p token).price id = 0) ∧
  ∀ (id : TokenId) (n : ℕ), d.op = .buy (some (id.toNat : ℤ)) (some (n : ℤ)) → d.caller = 0 → n = 0

/-- What an operation does to one id. -/
inductive Nfts.ChangeAt (caller : Address) (isOperator : Address → Bool) (o : TokenOp)
    (id : TokenId) (t t' : Nfts) : Prop where
  | kept : o.acquired ≠ some (id.toNat : ℤ) → t'.owner id = t.owner id →
      t'.approved id = t.approved id → t'.price id = t.price id → ChangeAt caller isOperator o id t t'
  | approved {std : Std} : o = .approve std (t'.approved id) id.toNat → t.owner id ≠ 0 →
      (t.owner id = caller ∨ isOperator (t.owner id)) → t'.owner id = t.owner id →
      t'.price id = t.price id → ChangeAt caller isOperator o id t t'
  | priced : o = .setPrice (some (id.toNat : ℤ)) (t'.price id) → t.owner id ≠ 0 →
      t.owner id = caller → t'.owner id = t.owner id → t'.approved id = t.approved id →
      ChangeAt caller isOperator o id t t'
  | transferred {std : Std} {src dst : Address} : o = .transferFrom std src dst id.toNat →
      t'.owner id ≠ 0 → t'.approved id = 0 → t'.price id = t.price id →
      ChangeAt caller isOperator o id t t'
  | minted : t.owner id = 0 → t'.approved id = t.approved id → t'.price id = t.price id →
      ChangeAt caller isOperator o id t t'
  | bought : o = .buy (some (id.toNat : ℤ)) (some (t'.price id : ℤ)) → t'.owner id = caller →
      t'.approved id = 0 → ChangeAt caller isOperator o id t t'

section
variable {caller minter : Address} {value : ℤ} {isOperator : Address → Bool} {o : TokenOp}
  {t t' : Nfts} {ts : List Transfer}

theorem Nfts.Step.changeAt (hstep : Nfts.Step caller value minter isOperator o t ts t')
    (id : TokenId) : Nfts.ChangeAt caller isOperator o id t t' := by
  cases hstep with
  | @transferFrom std dst id' t _ _ hdst _ =>
    by_cases hid : id = id'
    · subst hid
      exact .transferred rfl (by simpa using hdst) (update_self ..) rfl
    · exact .kept (by simpa [acquired, TokenOp.moved] using Ne.symm hid)
        (update_of_ne hid ..) (update_of_ne hid ..) rfl
  | @approve std spender id' t hminted hallowed =>
    by_cases hid : id = id'
    · subst hid
      exact .approved (congrArg (TokenOp.approve std · _) (update_self id spender t.approved).symm)
        hminted hallowed rfl rfl
    · exact .kept nofun rfl (update_of_ne hid ..) rfl
  | @mint std dst id' metadata t _ hfree =>
    by_cases hid : id = id'
    · subst hid
      exact .minted hfree rfl rfl
    · exact .kept (by simpa [acquired] using Ne.symm hid) (update_of_ne hid ..) rfl rfl
  | @setPrice id' n t hminted howner =>
    by_cases hid : id = id'
    · subst hid
      exact .priced (by simp) hminted howner rfl rfl
    · exact .kept nofun rfl rfl (update_of_ne hid ..)
  | @buy id' n t _ _ _ _ =>
    by_cases hid : id = id'
    · subst hid
      exact .bought (by simp) (update_self ..) (update_self ..)
    · exact .kept (by simpa [acquired, TokenOp.moved] using Ne.symm hid)
        (update_of_ne hid ..) (update_of_ne hid ..) (update_of_ne hid ..)
  | _ => exact .kept nofun rfl rfl rfl

end

/-- An id without an owner has neither an approval nor a price. -/
structure OwnerInv (p : Processor) (token : Address) (H : List Done) (t : Nfts) : Prop
    extends OwnerGrants p token H t where
  free : ∀ id, t.owner id = 0 → t.approved id = 0 ∧ t.price id = 0

section
variable {t' : Nfts} {d : Done} {id : TokenId}

theorem OwnerInv.changeAt (h : OwnerInv p token H (d.nftsBefore p token))
    (hunpriced : d.Unpriced p token)
    (hc : Nfts.ChangeAt d.caller (p.isOperator (storageBytes d.before token) · d.caller) d.op id
      (d.nftsBefore p token) t') :
    (t'.approved id ≠ 0 → Since (fun d => d.Grants p token id (t'.owner id) (t'.approved id))
        (Done.Acquires id) (d :: H)) ∧
      (t'.price id ≠ 0 → Since (fun d => d.Prices id (t'.owner id) (t'.price id))
        (Done.Acquires id) (d :: H)) ∧
      (t'.owner id = 0 → t'.approved id = 0 ∧ t'.price id = 0) := by
  cases hc with
  | kept hacquired howner happroved hprice =>
    rw [howner, happroved, hprice]
    exact ⟨fun hne => .inr ⟨hacquired, h.approved id hne⟩,
      fun hne => .inr ⟨hacquired, h.price id hne⟩, h.free id⟩
  | approved hop hminted hallowed howner hprice =>
    have hacquired : ¬ Done.Acquires id d := by simp [Done.Acquires, hop, acquired, TokenOp.moved]
    rw [howner, hprice]
    exact ⟨fun _ => .inl ⟨⟨_, hop⟩, rfl, hallowed.imp_left Eq.symm⟩,
      fun hne => .inr ⟨hacquired, h.price id hne⟩, fun hzero => absurd hzero hminted⟩
  | priced hop hminted hcaller howner happroved =>
    have hacquired : ¬ Done.Acquires id d := by simp [Done.Acquires, hop, acquired, TokenOp.moved]
    rw [howner, happroved]
    exact ⟨fun hne => .inr ⟨hacquired, h.approved id hne⟩, fun _ => .inl ⟨hcaller.symm, .inl hop⟩,
      fun hzero => absurd hzero hminted⟩
  | transferred hop howner happroved hprice =>
    rw [happroved, hprice, hunpriced.1 _ _ _ _ hop]
    simp [howner]
  | minted hfree happroved hprice =>
    obtain ⟨hnoApproval, hnoPrice⟩ := h.free id hfree
    simp [happroved, hprice, hnoApproval, hnoPrice]
  | bought hop howner happroved =>
    rw [howner, happroved]
    exact ⟨fun hne => absurd rfl hne, fun _ => .inl ⟨rfl, .inr hop⟩,
      fun hzero => ⟨rfl, hunpriced.2 _ _ hop hzero⟩⟩

end

section
variable {baseURI : Bytes} {percentFee : UInt8} (hp : p.NoCollision)
  (hkind : op.kind = .wrc721 baseURI percentFee)
include hp hkind

/-- The approval and the price of an id are the present owner's, as long as only ids without a
    price are transferred. -/
theorem ownerGrants_of_unpriced (h : TokenRun p op token H s)
    (hunpriced : ∀ d ∈ H, d.Unpriced p token) :
    OwnerGrants p token H (p.nfts (storageBytes s token)) := by
  have hinv := TokenRun.invariant (I := fun H m => Laid op m ∧
    ((∀ d ∈ H, d.Unpriced p token) → OwnerInv p token H (p.nfts m))) ?_ ?_ h
  · exact (hinv.2 hunpriced).toOwnerGrants
  · intro d _ _ hrun _
    obtain ⟨hlaid, hnfts, -⟩ := createStorage_nfts hp hkind hrun
    rw [hnfts]
    exact ⟨hlaid, fun _ => ⟨⟨by simp, by simp⟩, by simp⟩⟩
  · rintro H d ⟨hlaid, hgrants⟩ hdec hhandled
    obtain ⟨hsame, ts, hstep, -⟩ := hhandled.nfts hp hkind hlaid hdec
    refine ⟨hsame.laid hlaid, fun hunpriced => ?_⟩
    obtain ⟨hd, hH⟩ := forall_mem_cons.1 hunpriced
    have hchange := fun id => (hgrants hH).changeAt hd (hstep.changeAt id)
    exact ⟨⟨fun id => (hchange id).1, fun id => (hchange id).2.1⟩, fun id => (hchange id).2.2⟩

end

/-- A price that the owner sets is the owner's. -/
theorem priced_ownerGrants : ∃ s₁ s₂ s₃,
    TokenRun spaced (collection 0) 1001
      [⟨s₂, 2, 0, .setPrice (some 5) 100, s₃⟩, ⟨s₁, 1, 0, .mint stdWRC721 2 5 [], s₂⟩,
        ⟨empty, 1, 0, .create (collection 0), s₁⟩] s₃ ∧
      (Processor.spaced.nfts (storageBytes s₃ 1001)).price idFive = 100 ∧
      OwnerGrants spaced 1001
        [⟨s₂, 2, 0, .setPrice (some 5) 100, s₃⟩, ⟨s₁, 1, 0, .mint stdWRC721 2 5 [], s₂⟩,
          ⟨empty, 1, 0, .create (collection 0), s₁⟩]
        (Processor.spaced.nfts (storageBytes s₃ 1001)) := by
  obtain ⟨s₁, s₂, s₃, m, hrun, hlive, -, -, -, hnfts, -⟩ :=
    @exists_pricedRun idFive 2 empty 0 100 (by decide) (by norm_num) rfl rfl
  refine ⟨s₁, s₂, s₃, hrun, by simp [hlive.storage, hnfts],
    ownerGrants_of_unpriced noCollision_spaced rfl hrun fun d hd => ?_⟩
  simp only [mem_cons, not_mem_nil, or_false] at hd
  rcases hd with rfl | rfl | rfl <;>
    exact ⟨fun _ _ _ _ h => (nomatch h), fun _ _ h => (nomatch h)⟩

/-- A transferred id keeps the price that its earlier owner set. -/
theorem transferred_keeps_price : ∃ s₁ s₂ s₃ s₄,
    TokenRun spaced (collection 0) 1001
      [⟨s₃, 2, 0, .transferFrom stdWRC721 2 3 5, s₄⟩, ⟨s₂, 2, 0, .setPrice (some 5) 100, s₃⟩,
        ⟨s₁, 1, 0, .mint stdWRC721 2 5 [], s₂⟩,
        ⟨empty, 1, 0, .create (collection 0), s₁⟩] s₄ ∧
      (Processor.spaced.nfts (storageBytes s₄ 1001)).owner idFive = 3 ∧
      (Processor.spaced.nfts (storageBytes s₄ 1001)).price idFive = 100 ∧
      ¬ OwnerGrants spaced 1001
        [⟨s₃, 2, 0, .transferFrom stdWRC721 2 3 5, s₄⟩, ⟨s₂, 2, 0, .setPrice (some 5) 100, s₃⟩,
          ⟨s₁, 1, 0, .mint stdWRC721 2 5 [], s₂⟩,
          ⟨empty, 1, 0, .create (collection 0), s₁⟩]
        (Processor.spaced.nfts (storageBytes s₄ 1001)) := by
  have hp := noCollision_spaced
  obtain ⟨s₁, s₂, s₃, m, hrun, hlive, hlaid, -, -, hnfts, -⟩ :=
    @exists_pricedRun idFive 2 empty 0 100 (by decide) (by norm_num) rfl rfl
  have howner : (Processor.spaced.nfts m).owner idFive = 2 := by simp [hnfts]
  have hseller : (Processor.spaced.nfts m).balance 2 = 1 := by simp [hnfts]
  have hbuyer : (Processor.spaced.nfts m).balance 3 = 0 := by
    rw [hnfts]
    exact update_of_ne (by decide : (3 : Address) ≠ 2) 1 fun _ => 0
  obtain ⟨hends, hok⟩ : Meets _ _
      ((Processor.spaced.transferFromStorage 2 stdWRC721 2 3 idFive.toNat).run storageArray m) :=
    transferFromStorage_wrc721 0 hp hlaid rfl
  obtain ⟨_, m', hmove⟩ := hok ⟨rfl, rfl, by decide, by decide, hseller.ge,
    lt_of_eq_of_lt (congrArg (· + 1) hbuyer) (by norm_num), idFive, rfl, howner⟩
  obtain ⟨ret, s₄, hcall, hlive', -⟩ := call_transferFrom 0 hlive
    (by decide) (by decide) hmove
  obtain ⟨-, -, -, hstep⟩ := hends.2 _ _ hmove
  have hmoved := (hstep.inv idFive).2.2.1 _ _ _ rfl
  have hprice : (Processor.spaced.nfts (storageBytes s₄ 1001)).price idFive = 100 := by
    simp [hlive'.storage, hmoved, hnfts]
  refine ⟨s₁, s₂, s₃, s₄, .call hrun (by simp) (by decide : (0 : ℤ) ≤ 5) hcall, ?_, hprice,
    fun hgrants => ?_⟩
  · simp [hlive'.storage, hmoved]
  · rcases hgrants.price idFive (by rw [hprice]; decide) with hset | ⟨hacquired, -⟩
    · rcases hset.2 with hop | hop <;> cases hop
    · exact hacquired rfl

end Gwat.Token
