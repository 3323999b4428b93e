/-
  The ledger of a token and its events.
-/
import Gwat.Token.Ownership

namespace Gwat.Token

open GoLib ByteProg Function List Processor

variable {p : Processor} {op : CreateOp} {token caller creator : Address} {H : List Done}
  {s : StateDB}

/-! ## The supply -/

theorem Coins.Step.sum_eq {value : ℤ} {unitPrice : ℕ} {o : TokenOp} {c c' : Coins}
    {ts : List Transfer} (h : Coins.Step caller value creator unitPrice o c ts c') :
    ∑ a, c' a = ∑ a, c a := by
  cases h with
  | transfer hle | transferFrom hle | buy _ _ hle => exact sum_move hle
  | approve | setPrice | query => rfl

/-- The balances of a WRC-20 token add up to the total supply that its creation fixed, so none
    of them wraps around. -/
theorem supply_conserved {decimals : UInt8} {totalSupply : ℤ} {H : List Done} {s : StateDB}
    (hp : p.NoCollision) (hkind : op.kind = .wrc20 decimals totalSupply)
    (h : TokenRun p op token H s) :
    ((∑ a, p.balanceOf (storageBytes s token) a : ℕ) : ℤ) = totalSupply ∧ totalSupply < 2 ^ 256 ∧
      ∀ a, (p.balanceOf (storageBytes s token) a : ℤ) ≤ totalSupply := by
  have hinv := TokenRun.invariant (I := fun _ m => Laid op m ∧ totalSupply < 2 ^ 256 ∧
    ((∑ a, p.balanceOf m a : ℕ) : ℤ) = totalSupply) ?_ ?_ h
  · obtain ⟨-, hlt, hsum⟩ := hinv
    refine ⟨hsum, hlt, fun a => ?_⟩
    rw [← hsum]
    exact_mod_cast Finset.single_le_sum (fun _ _ => Nat.zero_le _) (Finset.mem_univ a)
  · intro d _ hdec hrun _
    obtain ⟨hlaid, n, hn, hlt, hbal⟩ := createStorage_coins hp hkind hdec hrun
    refine ⟨hlaid, by omega, ?_⟩
    rw [hbal, Finset.sum_update_of_mem (Finset.mem_univ _)]
    simpa using hn
  · intro H d hI hdec hhandled
    obtain ⟨hlaid, hlt, hsum⟩ := hI
    obtain ⟨hlaid', ts, hstep, -⟩ := hhandled.coins hp hkind hlaid hdec
    exact ⟨hlaid', hlt, by rw [hstep.sum_eq, hsum]⟩

/-- After a transfer, an approval, a new price and a purchase, the balances add up to the supply. -/
theorem traded_supply : ∃ s₁ s₂ s₃ s₄ s₅, TokenRun spaced coin 1001
    [⟨s₄, 3, 38, .buy none none, s₅⟩, ⟨s₃, 1, 0, .setPrice none 5, s₄⟩,
      ⟨s₂, 2, 0, .approve stdWRC20 3 50, s₃⟩, ⟨s₁, 1, 0, .transfer stdWRC20 2 100, s₂⟩,
      ⟨withCoins, 1, 0, .create coin, s₁⟩] s₅ ∧
      ((∑ a, Processor.spaced.balanceOf (storageBytes s₅ 1001) a : ℕ) : ℤ) = 1000 := by
  obtain ⟨s₁, s₂, s₃, s₄, s₅, hrun⟩ := exists_tradedRun
  exact ⟨s₁, s₂, s₃, s₄, s₅, hrun, (supply_conserved noCollision_spaced rfl hrun).1⟩

/-! ## Replay -/

/-- The balances after a transfer. -/
def Transfer.move (t : Transfer) (balance : Address → ℤ) : Address → ℤ := fun a =>
  balance a - (if a = t.src then t.value else 0) + if a = t.dst then t.value else 0

/-- The balances that the transfers give; what was minted is missing at the zero address. -/
def replayBalances (ts : List Transfer) : Address → ℤ :=
  ts.foldl (fun balance t => t.move balance) fun _ => 0

/-- The owners that the transfers give. -/
def replayOwner (ts : List Transfer) : TokenId → Address :=
  ts.foldl (fun owner t id => if t.value = id.toNat then t.dst else owner id) fun _ => 0

/-- The transfers that the calls report, in order. -/
def Processor.reported (p : Processor) (token : Address) (H : List Done) : List Transfer :=
  H.reverse.flatMap fun d => p.transfersOf token d.emitted

theorem Processor.reported_cons (p : Processor) (token : Address) (H : List Done) (d : Done) :
    p.reported token (d :: H) = p.reported token H ++ p.transfersOf token d.emitted := by
  rw [reported, reverse_cons, flatMap_append, flatMap_singleton]
  rfl

/-- The reported transfers give the recorded ledger. -/
def Replays (p : Processor) (op : CreateOp) (token : Address) (H : List Done) (m : Mem) : Prop :=
  match op.kind with
  | .wrc20 _ totalSupply => ∀ a, (p.balanceOf m a : ℤ) =
      replayBalances (p.reported token H) a + if a = 0 then totalSupply else 0
  | .wrc721 _ _ => (p.nfts m).owner = replayOwner (p.reported token H)

/-- The call on a WRC-721 token is neither a burn, unless by the zero address, nor a purchase of
    another id than 1. -/
def Done.Reported (d : Done) (kind : CreateKind) : Prop :=
  match kind with
  | .wrc20 _ _ => True
  | .wrc721 _ _ => (d.op.burned ≠ none → d.caller = 0) ∧
      ∀ tokenId newCost, d.op = .buy tokenId newCost → tokenId = some 1

section
variable {caller minter creator : Address} {value : ℤ} {isOperator : Address → Bool} {o : TokenOp}
  {ts : List Transfer} {unitPrice : ℕ} {balance supply : Address → ℤ}

theorem Coins.Step.replay {c c' : Coins} (h : Coins.Step caller value creator unitPrice o c ts c')
    (hc : ∀ a, (c a : ℤ) = balance a + supply a) :
    ∀ a, (c' a : ℤ) = ts.foldl (fun balance t => t.move balance) balance a + supply a := by
  have hmoved : ∀ {src dst : Address} {v : ℕ}, v ≤ c src → ∀ a, (move c src dst v a : ℤ) =
      Transfer.move ⟨src, dst, v⟩ balance a + supply a := by
    intro src dst v hle a
    have hadd := move_add dst a hle
    have heq := hc a
    simp only [Transfer.move]
    split_ifs at hadd ⊢ <;> omega
  cases h with
  | transfer hle | transferFrom hle | buy _ _ hle => exact hmoved hle
  | approve | setPrice | query => exact hc

theorem update_owner_eq (owner : TokenId → Address) (id : TokenId) (dst : Address) :
    update owner id dst = fun id' => if id.toNat = id'.toNat then dst else owner id' := by
  funext id'
  simp [update_apply, eq_comm]

theorem Nfts.Step.replay {t t' : Nfts} (h : Nfts.Step caller value minter isOperator o t ts t')
    (hburned : o.burned ≠ none → caller = 0)
    (hbuy : ∀ tokenId newCost, o = .buy tokenId newCost → tokenId = some 1) :
    t'.owner = ts.foldl (fun owner t id => if t.value = id.toNat then t.dst else owner id)
      t.owner := by
  cases h with
  | transferFrom | mint => exact update_owner_eq ..
  | @burn std id t _ howner =>
    obtain rfl := hburned nofun
    have hsame : update t.owner id 0 = t.owner := by rw [← howner, update_eq_self]
    exact hsame.symm.trans (update_owner_eq ..)
  | @buy id n t _ _ _ _ =>
    have hone : id.toNat = 1 := Int.ofNat_inj.1 (Option.some.inj (hbuy _ _ rfl))
    exact (update_owner_eq t.owner id caller).trans (by rw [hone]; rfl)
  | approve | setPrice | setApprovalForAll | transfer | query => rfl

end

section
variable (hp : p.NoCollision) (hev : p.EventsApart) (h : TokenRun p op token H s)
include hp hev h

theorem replays_wrc20 {decimals : UInt8} {totalSupply : ℤ}
    (hkind : op.kind = .wrc20 decimals totalSupply) (a : Address) :
    (p.balanceOf (storageBytes s token) a : ℤ) =
      replayBalances (p.reported token H) a + if a = 0 then totalSupply else 0 := by
  refine (TokenRun.invariant (I := fun H m => Laid op m ∧ ∀ a, (p.balanceOf m a : ℤ) =
    replayBalances (p.reported token H) a + if a = 0 then totalSupply else 0) ?_ ?_ h).2 a
  · intro d _ hdec hrun hemitted
    obtain ⟨hlaid, n, hn, hlt, hbal⟩ := createStorage_coins hp hkind hdec hrun
    have hfits : fromBigChecked totalSupply = .ok n := by
      rw [← hn, fromBigChecked_natCast, if_neg (Nat.not_le.2 hlt)]
    have hevents : p.transfersOf token d.emitted = [⟨0, d.caller, n⟩] := by
      simp only [hemitted, creationEvent, hkind, ← (eq_fromBig_of_checked hfits).1]
      exact transfersOf_transferEvent hlt
    refine ⟨hlaid, fun a => ?_⟩
    rw [Processor.reported, reverse_singleton, flatMap_singleton, hevents, hbal, ← hn]
    simp only [replayBalances, foldl_cons, foldl_nil, Transfer.move, update_apply]
    split_ifs <;> simp
  · rintro H d ⟨hlaid, hreplay⟩ hdec hhandled
    obtain ⟨hlaid', ts, hstep, hts⟩ := hhandled.coins hp hkind hlaid hdec
    refine ⟨hlaid', fun a => ?_⟩
    rw [reported_cons, hts hev, replayBalances, foldl_append]
    exact hstep.replay hreplay a

theorem replays_wrc721 {baseURI : Bytes} {percentFee : UInt8}
    (hkind : op.kind = .wrc721 baseURI percentFee)
    (hburned : ∀ d ∈ H, d.op.burned ≠ none → d.caller = 0)
    (hbuy : ∀ d ∈ H, ∀ tokenId newCost, d.op = .buy tokenId newCost → tokenId = some 1) :
    (p.nfts (storageBytes s token)).owner = replayOwner (p.reported token H) := by
  refine (TokenRun.invariant (I := fun H m => Laid op m ∧
    ((∀ d ∈ H, d.op.burned ≠ none → d.caller = 0) →
    (∀ d ∈ H, ∀ tokenId newCost, d.op = .buy tokenId newCost → tokenId = some 1) →
    (p.nfts m).owner = replayOwner (p.reported token H))) ?_ ?_ h).2 hburned hbuy
  · intro d _ hdec hrun hemitted
    obtain ⟨hlaid, hnfts, -⟩ := createStorage_nfts hp hkind hrun
    refine ⟨hlaid, fun _ _ => ?_⟩
    have hevents : p.transfersOf token d.emitted = [] := by
      simp only [hemitted, creationEvent, hkind]
      exact transfersOf_createEvent
    rw [hnfts, Processor.reported, reverse_singleton, flatMap_singleton, hevents]
    rfl
  · rintro H d ⟨hlaid, hreplay⟩ hdec hhandled
    obtain ⟨hsame, ts, hstep, hts⟩ := hhandled.nfts hp hkind hlaid hdec
    refine ⟨hsame.laid hlaid, fun hburned hbuy => ?_⟩
    obtain ⟨hdburned, hHburned⟩ := forall_mem_cons.1 hburned
    obtain ⟨hdbuy, hHbuy⟩ := forall_mem_cons.1 hbuy
    rw [reported_cons, hts hev, replayOwner, foldl_append]
    refine (hstep.replay hdburned hdbuy).trans ?_
    rw [hreplay hHburned hHbuy]
    rfl

end

/-- The events of a token replay to its ledger, when its ids are not burned and no other id than
    1 is sold. -/
theorem replays_of_reported (hp : p.NoCollision) (hev : p.EventsApart)
    (h : TokenRun p op token H s) (hreported : ∀ d ∈ H, d.Reported op.kind) :
    Replays p op token H (storageBytes s token) := by
  unfold Replays
  cases hkind : op.kind with
  | wrc20 decimals totalSupply => exact replays_wrc20 hp hev h hkind
  | wrc721 baseURI percentFee =>
    simp only [hkind, Done.Reported] at hreported
    exact replays_wrc721 hp hev h hkind (fun d hd => (hreported d hd).1)
      fun d hd => (hreported d hd).2

theorem eventsApart_spaced : Processor.spaced.EventsApart := ⟨by decide +kernel, by decide +kernel⟩

/-- The events of a mint replay to the owner. -/
theorem minted_replays : ∃ s₁ s₂,
    TokenRun spaced (collection 0) 1001 [⟨s₁, 1, 0, .mint stdWRC721 1 5 [], s₂⟩,
      ⟨StateDB.empty, 1, 0, .create (collection 0), s₁⟩] s₂ ∧
    Replays spaced (collection 0) 1001 [⟨s₁, 1, 0, .mint stdWRC721 1 5 [], s₂⟩,
      ⟨StateDB.empty, 1, 0, .create (collection 0), s₁⟩] (storageBytes s₂ 1001) := by
  obtain ⟨s₁, s₂, m, hrun, -⟩ := @exists_mintedRun idFive 1 StateDB.empty 0 rfl rfl
  refine ⟨s₁, s₂, hrun, replays_of_reported noCollision_spaced eventsApart_spaced hrun
    fun d hd => ?_⟩
  simp only [mem_cons, not_mem_nil, or_false] at hd
  rcases hd with rfl | rfl
  all_goals exact ⟨fun hburned => absurd rfl hburned, fun _ _ h => (nomatch h)⟩

/-- The event of a purchase does not name the id that was sold. -/
theorem sold_does_not_replay : ∃ s₁ s₂ s₃ s₄,
    TokenRun spaced (collection 0) 1001
      [⟨s₃, 3, 100, .buy (some 5) (some 0), s₄⟩, ⟨s₂, 2, 0, .setPrice (some 5) 100, s₃⟩,
        ⟨s₁, 1, 0, .mint stdWRC721 2 5 [], s₂⟩,
        ⟨withCoins, 1, 0, .create (collection 0), s₁⟩] s₄ ∧
      (Processor.spaced.nfts (storageBytes s₄ 1001)).owner idFive = 3 ∧
      ¬ Replays spaced (collection 0) 1001
        [⟨s₃, 3, 100, .buy (some 5) (some 0), s₄⟩, ⟨s₂, 2, 0, .setPrice (some 5) 100, s₃⟩,
          ⟨s₁, 1, 0, .mint stdWRC721 2 5 [], s₂⟩,
          ⟨withCoins, 1, 0, .create (collection 0), s₁⟩] (storageBytes s₄ 1001) := by
  have hp := noCollision_spaced
  obtain ⟨s₁, s₂, s₃, s₄, m, ret, hrun, hcall, hstorage, -, -, hnfts⟩ :=
    @exists_soldRun withCoins 0 rfl rfl (by decide)
  have hdec : (TokenOp.buy (some 5) (some 0)).Decoded :=
    ⟨fun t ht => Option.some.inj ht ▸ (by decide), fun c hc => Option.some.inj hc ▸ le_rfl⟩
  have hcreate : ∀ op, TokenOp.buy (some 5) (some 0) ≠ .create op := fun _ h => by cases h
  obtain ⟨logs, hhandled, hlogs⟩ := call_eq_ok hcreate hcall
  have hlaid := (hrun.fields_wrc721 hp rfl).1
  obtain ⟨-, ts, hstep, hts⟩ := hhandled.nfts hp rfl hlaid hdec
  obtain ⟨-, -, hsold, n, -, hnfts'⟩ := (hstep.inv idFive).2.2.2.2 _ rfl
  have howner : (Processor.spaced.nfts (storageBytes s₃ 1001)).owner idFive = 2 := by
    simp [hstorage, hnfts]
  have howner' : (Processor.spaced.nfts (storageBytes s₄ 1001)).owner idFive = 3 := by
    simp [hnfts']
  have hreplayed := replays_wrc721 hp eventsApart_spaced hrun rfl ?_ ?_
  · refine ⟨s₁, s₂, s₃, s₄, .call hrun hcreate hdec hcall, howner', fun hreplays => ?_⟩
    have hemitted : (⟨s₃, 3, 100, .buy (some 5) (some 0), s₄⟩ : Done).emitted = logs :=
      Done.emitted_eq hlogs
    have hreplays := congrFun hreplays idFive
    rw [reported_cons, hemitted, hts eventsApart_spaced, hsold, replayOwner,
      foldl_append] at hreplays
    -- the event names the id 1, so the replayed owner is still the seller
    have hlast := (howner'.symm.trans hreplays).trans (congrFun hreplayed idFive).symm
    rw [howner] at hlast
    exact absurd hlast (by decide)
  · intro d hd hburned
    simp only [mem_cons, not_mem_nil, or_false] at hd
    rcases hd with rfl | rfl | rfl <;> exact absurd rfl hburned
  · intro d hd tokenId newCost hop
    simp only [mem_cons, not_mem_nil, or_false] at hd
    rcases hd with rfl | rfl | rfl <;> cases hop

end Gwat.Token
