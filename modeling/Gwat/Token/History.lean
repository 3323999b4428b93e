/-
  The history of a token: every run of operations on it, from its creation on.
-/
import Gwat.Token.Calls

namespace Gwat.Token

open GoLib ByteProg Function

variable {p : Processor} {op : CreateOp} {token : Address}

/-! ## Events -/

/-- The address in a topic. -/
def addressOfTopic (topic : Hash) : Address := addressOfBytes topic.bytes

@[simp] theorem addressOfTopic_hash (a : Address) : addressOfTopic a.hash = a :=
  ofNat_natOfBytes_bytesBE (k := 32) (by norm_num) a

namespace Processor

variable (p : Processor)

/-- The transfer that a log of the token reports. -/
def transferOf (token : Address) (l : Log) : Option Transfer :=
  if l.address = token ∧
      l.event = .contract (p.keccak256 (textBytes "Transfer(address,address,uint256)")) then
    match l.topics, l.data with
    | [src, dst], .raw data => some ⟨addressOfTopic src, addressOfTopic dst, natOfBytes data⟩
    | _, _ => none
  else none

/-- The transfers that the logs report. -/
def transfersOf (token : Address) (logs : List Log) : List Transfer :=
  logs.filterMap (p.transferOf token)

/-- The signatures of the other events have other hashes. -/
structure EventsApart : Prop where
  approval : p.keccak256 (textBytes "Approval(address,address,uint256)") ≠
    p.keccak256 (textBytes "Transfer(address,address,uint256)")
  approvalForAll : p.keccak256 (textBytes "ApprovalForAll(address,address,bool)") ≠
    p.keccak256 (textBytes "Transfer(address,address,uint256)")

variable {p} {src dst : Address} {n : ℕ} {data : Bytes}

theorem transfersOf_transferEvent (h : n < 2 ^ 256) :
    p.transfersOf token [p.transferEvent token src dst (bytesBE 32 n)] = [⟨src, dst, n⟩] := by
  simp [transfersOf, transferOf, transferEvent, event, natOfBytes_uint256 h]

theorem transfersOf_approvalEvent (hev : p.EventsApart) :
    p.transfersOf token [p.approvalEvent token src dst data] = [] := by
  simp [transfersOf, transferOf, approvalEvent, event, hev.approval]

theorem transfersOf_approvalForAllEvent (hev : p.EventsApart) {approved : Bool} :
    p.transfersOf token [p.approvalForAllEvent token src dst approved] = [] := by
  simp [transfersOf, transferOf, approvalForAllEvent, event, hev.approvalForAll]

theorem transfersOf_createEvent : p.transfersOf token [p.createEvent token src data] = [] := by
  simp [transfersOf, transferOf, createEvent]

end Processor

/-! ## Runs -/

/-- Numbers of operations that `DecodeBytes` returns are not negative. -/
def TokenOp.Decoded : TokenOp → Prop
  | .create op =>
    match op.kind with
    | .wrc20 _ totalSupply => 0 ≤ totalSupply
    | .wrc721 _ _ => True
  | .transferFrom _ _ _ v => 0 ≤ v
  | .transfer _ _ v => 0 ≤ v
  | .approve _ _ v => 0 ≤ v
  | .mint _ _ tokenId _ => 0 ≤ tokenId
  | .burn _ tokenId => 0 ≤ tokenId
  | .setApprovalForAll _ _ _ => True
  | .buy tokenId newCost => (∀ t ∈ tokenId, 0 ≤ t) ∧ ∀ c ∈ newCost, 0 ≤ c
  | .setPrice tokenId v => (∀ t ∈ tokenId, 0 ≤ t) ∧ 0 ≤ v
  | .query => True

/-- A successful call, with the states before and after it. -/
structure Done where
  before : StateDB
  caller : Address
  value : ℤ
  op : TokenOp
  after : StateDB

def Done.emitted (d : Done) : List Log := d.after.logs.drop d.before.logs.length

theorem Done.emitted_eq {d : Done} {logs : List Log} (h : d.after.logs = d.before.logs ++ logs) :
    d.emitted = logs := by
  rw [emitted, h, List.drop_left]

/-- The runs of the token that `op` created at `token`: the successful calls on it, the last one
    first, and the state after them. -/
inductive TokenRun (p : Processor) (op : CreateOp) (token : Address) :
    List Done → StateDB → Prop where
  | created {s s' : StateDB} {caller : Address} {value : ℤ} {ret : Bytes} :
      (TokenOp.create op).Decoded → token = p.createAddress caller (s.getNonce caller) →
      p.call s caller 0 value (.create op) = (.ok ret, s') →
      TokenRun p op token [⟨s, caller, value, .create op, s'⟩] s'
  | call {H : List Done} {s s' : StateDB} {caller : Address} {value : ℤ} {o : TokenOp}
      {ret : Bytes} : TokenRun p op token H s → (∀ op', o ≠ .create op') → o.Decoded →
      p.call s caller token value o = (.ok ret, s') →
      TokenRun p op token (⟨s, caller, value, o, s'⟩ :: H) s'
  | failed {H : List Done} {s s' : StateDB} {caller a : Address} {value : ℤ} {o : TokenOp}
      {e : TokenError} : TokenRun p op token H s → p.call s caller a value o = (.error e, s') →
      TokenRun p op token H s'
  | other {H : List Done} {s s' : StateDB} : TokenRun p op token H s →
      s'.getState token = s.getState token → TokenRun p op token H s'

/-- What the creation establishes and every operation keeps holds in every run. -/
theorem TokenRun.invariant {I : List Done → Mem → Prop} {H : List Done} {s : StateDB}
    (hcreated : ∀ d : Done, d.op = .create op → (TokenOp.create op).Decoded →
      (p.createStorage d.caller op).run storageArray emptyStorage =
        .ok ((), storageBytes d.after token) →
      d.emitted = [p.creationEvent d.caller token op.kind] → I [d] (storageBytes d.after token))
    (hcall : ∀ (H : List Done) (d : Done), I H (storageBytes d.before token) → d.op.Decoded →
      p.Handled d.caller token d.value (storageBytes d.before token) d.op
        (storageBytes d.after token) d.emitted → I (d :: H) (storageBytes d.after token))
    (h : TokenRun p op token H s) : I H (storageBytes s token) := by
  induction h with
  | created hdec htoken hok =>
    obtain ⟨hrun, hlogs⟩ := create_eq_ok htoken hok
    exact hcreated ⟨_, _, _, _, _⟩ rfl hdec hrun (Done.emitted_eq hlogs)
  | @call H s s' caller value o ret _ hcreate hdec hok ih =>
    obtain ⟨logs, hhandled, hlogs⟩ := call_eq_ok hcreate hok
    have hemitted : (⟨s, caller, value, o, s'⟩ : Done).emitted = logs := Done.emitted_eq hlogs
    exact hcall H ⟨s, caller, value, o, s'⟩ ih hdec (hemitted ▸ hhandled)
  | failed _ herr ih => rwa [storageBytes_of_call_error herr]
  | other _ hstate ih => rwa [storageBytes, hstate]

/-! ## WRC-20 -/

section
variable {decimals : UInt8} {totalSupply value : ℤ} {caller : Address} {m m' : Mem} {o : TokenOp}
  {logs : List Log} (hp : p.NoCollision) (hkind : op.kind = .wrc20 decimals totalSupply)
include hp hkind

theorem Processor.Handled.coins (hlaid : Laid op m) (hdec : o.Decoded)
    (h : p.Handled caller token value m o m' logs) :
    Laid op m' ∧ ∃ ts, Coins.Step caller value (creatorOf op m) (unitPriceOf op m) o
        (p.balanceOf m) ts (p.balanceOf m') ∧ (p.EventsApart → p.transfersOf token logs = ts) := by
  cases h with
  | @transfer std dst v u m' hlt hrun =>
    lift v to ℕ using hdec
    obtain ⟨rfl, -, hlaid', hstep⟩ := (transferStorage_wrc20 _ hp hlaid hkind).2 _ _ hrun
    exact ⟨hlaid', _, hstep, fun _ => Processor.transfersOf_transferEvent hlt⟩
  | @transferFrom std src dst v u m' hlt hrun =>
    lift v to ℕ using hdec
    obtain ⟨rfl, -, hlaid', hstep⟩ := (transferFromStorage_wrc20 _ hp hlaid hkind).2 _ _ hrun
    exact ⟨hlaid', _, hstep, fun _ => Processor.transfersOf_transferEvent hlt⟩
  | @approve std spender v u m' hrun =>
    lift v to ℕ using hdec
    obtain ⟨rfl, -, hlaid', hstep⟩ := (approveStorage_wrc20 _ hp hlaid hkind).2 _ _ hrun
    exact ⟨hlaid', _, hstep, fun hev => Processor.transfersOf_approvalEvent hev⟩
  | mint hlt hrun =>
    exact ((mintStorage_wrc20 (Q := fun _ _ => False) hlaid hkind).2 _ _ hrun).elim
  | burn hlt hrun =>
    exact ((burnStorage_wrc20 (Q := fun _ _ => False) hlaid hkind).2 _ _ hrun).elim
  | setApprovalForAll hrun =>
    exact ((setApprovalForAllStorage_wrc20 (Q := fun _ _ => False) hlaid hkind).2 _ _ hrun).elim
  | setPrice hrun =>
    obtain ⟨hlaid', hstep⟩ := (setPriceStorage_wrc20 _ hp hlaid hkind).2 _ _ hrun
    exact ⟨hlaid', _, hstep, fun _ => rfl⟩
  | @buy tokenId newCost r m' hlt hrun =>
    obtain ⟨-, n, hr, -, hlaid', hstep⟩ := (buyStorage_wrc20 _ hp hlaid hkind).2 _ _ hrun
    rw [hr] at hlt ⊢
    exact ⟨hlaid', _, hstep, fun _ => Processor.transfersOf_transferEvent hlt⟩
  | query => exact ⟨hlaid, _, .query, fun _ => rfl⟩

theorem createStorage_coins (hdec : (TokenOp.create op).Decoded)
    (h : (p.createStorage caller op).run storageArray emptyStorage = .ok ((), m')) :
    Laid op m' ∧ ∃ n : ℕ, (n : ℤ) = totalSupply ∧ n < 2 ^ 256 ∧
      p.balanceOf m' = update (fun _ => 0) caller n := by
  obtain ⟨m₁, hlaid, hbal, hrun⟩ := run_createStorage_wrc20 hp caller hkind emptyStorage
  simp only [TokenOp.Decoded, hkind] at hdec
  rw [hrun] at h
  cases hsupply : fromBigChecked totalSupply with
  | error e =>
    rw [hsupply] at h
    cases h
  | ok n =>
    rw [hsupply] at h
    cases h
    obtain ⟨hn, hlt⟩ := fromBigChecked_eq_ok hsupply hdec
    rw [balanceOf_emptyStorage, ← (eq_fromBig_of_checked hsupply).1] at hbal
    exact ⟨hlaid, n, hn, hlt, hbal⟩

end

/-! ## WRC-721 -/

section
variable {baseURI : Bytes} {percentFee : UInt8} {value : ℤ} {caller : Address} {m m' : Mem}
  {o : TokenOp} {logs : List Log} (hp : p.NoCollision) (hkind : op.kind = .wrc721 baseURI percentFee)
include hp hkind

theorem Processor.Handled.nfts (hlaid : Laid op m) (hdec : o.Decoded)
    (h : p.Handled caller token value m o m' logs) :
    SameFields m m' ∧ ∃ ts, Nfts.Step caller value (minterOf op m) (p.isOperator m · caller) o
        (p.nfts m) ts (p.nfts m') ∧ (p.EventsApart → p.transfersOf token logs = ts) := by
  cases h with
  | transfer hlt hrun =>
    obtain ⟨rfl, rfl⟩ := (transferStorage_wrc721 hlaid hkind).2 _ _ hrun
    exact ⟨.refl _, _, .transfer, fun _ => rfl⟩
  | @transferFrom std src dst v u m' hlt hrun =>
    lift v to ℕ using hdec
    obtain ⟨rfl, -, hsame, hstep⟩ := (transferFromStorage_wrc721 _ hp hlaid hkind).1.2 _ _ hrun
    exact ⟨hsame, _, hstep, fun _ => Processor.transfersOf_transferEvent hlt⟩
  | @approve std spender v u m' hrun =>
    lift v to ℕ using hdec
    obtain ⟨rfl, -, hsame, hstep⟩ := (approveStorage_wrc721 _ hp hlaid hkind).2 _ _ hrun
    exact ⟨hsame, _, hstep, fun hev => Processor.transfersOf_approvalEvent hev⟩
  | @mint std dst v metadata u m' hlt hrun =>
    lift v to ℕ using hdec
    obtain ⟨rfl, -, hsame, hstep⟩ := (mintStorage_wrc721 _ hp hlaid hkind).1.2 _ _ hrun
    exact ⟨hsame, _, hstep, fun _ => Processor.transfersOf_transferEvent hlt⟩
  | @burn std v owner m' hlt hrun =>
    lift v to ℕ using hdec
    obtain ⟨rfl, -, rfl, hsame, hstep⟩ := (burnStorage_wrc721 _ hp hlaid hkind).1.2 _ _ hrun
    exact ⟨hsame, _, hstep, fun _ => Processor.transfersOf_transferEvent hlt⟩
  | setApprovalForAll hrun =>
    obtain ⟨rfl, hsame, hnfts⟩ := (setApprovalForAllStorage_wrc721 hp hlaid hkind).2 _ _ hrun
    rw [hnfts]
    exact ⟨hsame, _, .setApprovalForAll, fun hev => Processor.transfersOf_approvalForAllEvent hev⟩
  | @setPrice tokenId v u m' hrun =>
    obtain ⟨hid, hv⟩ := hdec
    lift v to ℕ using hv
    obtain ⟨hsame, hstep⟩ := (setPriceStorage_wrc721 _ hp hlaid hkind hid).1.2 _ _ hrun
    exact ⟨hsame, _, hstep, fun _ => rfl⟩
  | @buy tokenId newCost r m' hlt hrun =>
    obtain ⟨-, id, -, hr, hsame, hstep⟩ :=
      (buyStorage_wrc721 _ hp hlaid hkind hdec.1 hdec.2).1.2 _ _ hrun
    rw [hr] at hlt ⊢
    exact ⟨hsame, _, hstep, fun _ => Processor.transfersOf_transferEvent hlt⟩
  | query => exact ⟨.refl m, _, .query, fun _ => rfl⟩

theorem createStorage_nfts
    (h : (p.createStorage caller op).run storageArray emptyStorage = .ok ((), m')) :
    Laid op m' ∧ p.nfts m' = ⟨fun _ => 0, fun _ => 0, fun _ => 0, fun _ => 0⟩ ∧
      minterOf op m' = caller ∧ percentFeeOf op m' = percentFee := by
  obtain ⟨m₁, hlaid, hnfts, hminter, hfee, hrun⟩ := run_createStorage_wrc721 hp caller hkind emptyStorage
  rw [hrun] at h
  cases h
  rw [nfts_emptyStorage] at hnfts
  exact ⟨hlaid, hnfts, hminter, hfee⟩

end

/-! ## Fields -/

section
variable {H : List Done} {s : StateDB} (hp : p.NoCollision)
include hp

theorem TokenRun.laid_wrc20 {decimals : UInt8} {totalSupply : ℤ}
    (hkind : op.kind = .wrc20 decimals totalSupply) (h : TokenRun p op token H s) :
    Laid op (storageBytes s token) := by
  refine TokenRun.invariant (I := fun _ m => Laid op m) ?_ ?_ h
  · intro d _ hdec hrun _
    exact (createStorage_coins hp hkind hdec hrun).1
  · intro H d hlaid hdec hhandled
    exact (hhandled.coins hp hkind hlaid hdec).1

theorem TokenRun.fields_wrc721 {baseURI : Bytes} {percentFee : UInt8}
    (hkind : op.kind = .wrc721 baseURI percentFee) (h : TokenRun p op token H s) :
    Laid op (storageBytes s token) ∧ percentFeeOf op (storageBytes s token) = percentFee := by
  refine TokenRun.invariant (I := fun _ m => Laid op m ∧ percentFeeOf op m = percentFee) ?_ ?_ h
  · intro d _ _ hrun _
    obtain ⟨hlaid, -, -, hfee⟩ := createStorage_nfts hp hkind hrun
    exact ⟨hlaid, hfee⟩
  · rintro H d ⟨hlaid, hfee⟩ hdec hhandled
    obtain ⟨hsame, -⟩ := hhandled.nfts hp hkind hlaid hdec
    exact ⟨hsame.laid hlaid, (hsame.percentFeeOf hkind).trans hfee⟩

end

end Gwat.Token
