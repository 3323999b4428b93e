/-
  What a call of the token processor does to the state.
-/
import Gwat.Token.Creation

namespace Gwat.Token

open GoLib ByteProg Act Processor StateDB

variable {p : Processor} {caller token : Address} {value : ℤ} {j j' : Journaled StateDB}
  {s s' s'' : StateDB}

/-! ## Storage and events -/

section
variable {α β : Type} {b : β}
variable {prog : StorageProg α} {str : StorageStream} {f : Unit → Processor.StateAct β} {v : ℤ}
  {log : Bytes → Log}

theorem onStorage_eq_ok {s : StateDB} {a : α} (h : onStorage token prog s = .ok (a, str)) :
    prog.run storageArray (storageBytes s token) = .ok (a, str.view) ∧
      str.tokenAddress = token ∧ str.stateDb = s := by
  have hview := run_refines stream_refines prog (newStorageStream token s)
  rw [onStorage] at h
  rw [h, view_newStorageStream] at hview
  exact ⟨hview.symm, run_stream_keeps h⟩

theorem withStorage_bind {f : α × StorageStream → Processor.StateAct β}
    (h : (withStorage token prog >>= f).exec j = (.ok b, j')) :
    ∃ a str, prog.run storageArray (storageBytes j.current token) = .ok (a, str.view) ∧
      str.tokenAddress = token ∧ str.stateDb = j.current ∧ (f (a, str)).exec j = (.ok b, j') := by
  obtain ⟨⟨a, str⟩, hrun, h⟩ := exec_attempt_bind_eq_ok.1 h
  obtain ⟨u, -, hrun⟩ := bind_eq_ok.1 hrun
  obtain ⟨hview, htoken, hdb⟩ := onStorage_eq_ok hrun
  exact ⟨a, str, hview, htoken, hdb, h⟩

theorem flush_bind (htoken : str.tokenAddress = token)
    (hdb : j.current.getState token = str.stateDb.getState token)
    (h : (write str.flush >>= f).exec j = (.ok b, j')) :
    ∃ s, storageBytes s token = str.view ∧ s.logs = j.current.logs ∧
      s.getBalance = j.current.getBalance ∧ (f ()).exec ⟨s, j.saved⟩ = (.ok b, j') := by
  subst htoken
  refine ⟨_, storageBytes_flush hdb, flush_keeps (fun _ _ _ _ => rfl) str _,
    flush_keeps (fun s a k v => ?_) str _, h⟩
  funext x
  exact getBalance_setState k v

theorem fillBytes_eq_ok {d : Bytes} (h : fillBytes v = .ok d) :
    v.natAbs < 2 ^ 256 ∧ d = bytesBE 32 v.natAbs := by
  unfold fillBytes at h
  split_ifs at h with hbig
  exact ⟨Nat.not_le.1 hbig, (Except.ok.inj h).symm⟩

theorem emit_bind (h : (emit log v >>= f).exec j = (.ok b, j')) : v.natAbs < 2 ^ 256 ∧
      (f ()).exec ⟨j.current.addLog (log (bytesBE 32 v.natAbs)), j.saved⟩ = (.ok b, j') := by
  rw [emit, bind_assoc] at h
  obtain ⟨data, hdata, h⟩ := exec_attempt_bind_eq_ok.1 h
  obtain ⟨hlt, hbytes⟩ := fillBytes_eq_ok hdata
  rw [exec_write_bind, hbytes] at h
  exact ⟨hlt, h⟩

theorem emitIf_bind (token : Address) {c : Bool}
    (h : (emitIf c log v >>= f).exec j = (.ok b, j')) :
    ∃ s, storageBytes s token = storageBytes j.current token ∧
      s.logs = j.current.logs ++ (if c then [log (bytesBE 32 v.natAbs)] else []) ∧
      (f ()).exec ⟨s, j.saved⟩ = (.ok b, j') := by
  unfold emitIf at h
  split_ifs at h with hc
  · obtain ⟨-, h⟩ := emit_bind h
    exact ⟨j.current.addLog (log (bytesBE 32 v.natAbs)), rfl, by rw [if_pos hc]; rfl, h⟩
  · exact ⟨j.current, rfl, by rw [if_neg hc, List.append_nil], h⟩

end

/-! ## Payments -/

/-- The fee that goes to the minter: none where the minter sells its own token. -/
def feeOf (minter : Option Address) (owner : Address) (value : ℤ) (percentFee : UInt8) : ℤ :=
  match minter with
  | none => 0
  | some minter => if owner ≠ minter then percentFee.toNat * value / 100 else 0

/-- The coins that a purchase moves: the buyer pays the price, of which the minter gets the fee
    and the owner the rest. -/
structure Paid (s s' : StateDB) (caller owner : Address) (minter : Option Address)
    (value fee : ℤ) : Prop where
  covered : value ≤ s.getBalance caller
  balance : ∀ a, s'.getBalance a = s.getBalance a - (if a = caller then value else 0) +
    (if a = owner then value - fee else 0) + (if minter = some a then fee else 0)

/-- The two states differ in balances only. -/
def SameStorage (s s' : StateDB) : Prop := s'.getState = s.getState ∧ s'.logs = s.logs

theorem SameStorage.trans (h : SameStorage s s') (h' : SameStorage s' s'') :
    SameStorage s s'' := ⟨h'.1.trans h.1, h'.2.trans h.2⟩

theorem sameStorage_pay (s : StateDB) (a b : Address) (x : ℤ) :
    SameStorage s ((s.subBalance a x).addBalance b x) := by
  refine ⟨funext fun c => funext fun k => ?_, rfl⟩
  simp only [getState, addBalance, subBalance, acct_modify]
  split_ifs with hb ha ha <;> simp [hb, ha]

theorem getBalance_pay (s : StateDB) (a b c : Address) (x : ℤ) :
    ((s.subBalance a x).addBalance b x).getBalance c =
      s.getBalance c - (if c = a then x else 0) + (if c = b then x else 0) := by
  rw [getBalance_addBalance, getBalance_subBalance]

section
variable {β : Type} {b : β} {owner : Address} {percentFee : UInt8} {st : Storage}
variable {minter : Option Address} {m m' : Mem}

theorem takeFee_bind {f : ℤ → Processor.StateAct β}
    (h : (takeFee caller owner minter value percentFee >>= f).exec j = (.ok b, j')) :
    ∃ s, SameStorage j.current s ∧
      (∀ a, s.getBalance a = j.current.getBalance a -
        (if a = caller then feeOf minter owner value percentFee else 0) +
        (if minter = some a then feeOf minter owner value percentFee else 0)) ∧
      (f (value - feeOf minter owner value percentFee)).exec ⟨s, j.saved⟩ = (.ok b, j') := by
  cases minter with
  | none =>
    refine ⟨j.current, ⟨rfl, rfl⟩, fun a => by simp [feeOf], ?_⟩
    rw [feeOf, sub_zero]
    exact h
  | some minter =>
    simp only [takeFee, feeOf] at h ⊢
    by_cases hne : owner ≠ minter
    · rw [if_pos hne, bind_assoc, exec_write_bind, bind_assoc, exec_write_bind, pure_bind] at h
      rw [if_pos hne]
      refine ⟨_, sameStorage_pay j.current caller minter _, fun a => ?_, h⟩
      simp [getBalance_pay, eq_comm]
    · rw [if_neg hne, pure_bind] at h
      rw [if_neg hne, sub_zero]
      exact ⟨j.current, ⟨rfl, rfl⟩, fun a => by simp, h⟩

theorem readField_keeps {α : Type} {decode : Encoding → Bytes → Except TokenError α}
    {name : Bytes} {a : α} (h : (st.readField decode name).run storageArray m = .ok (a, m')) :
    m' = m := by
  obtain ⟨e, -, h⟩ := run_ofExcept_bind_eq_ok.1 h
  cases e with
  | map byteMap key val => cases h
  | field info enc =>
    obtain ⟨buf, m₁, hread, h⟩ := run_bind_eq_ok.1 h
    obtain ⟨a', -, h⟩ := (run_ofExcept_bind_eq_ok (f := pure)).1 (by rwa [bind_pure])
    obtain ⟨-, rfl⟩ := Prod.mk.inj (Except.ok.inj h)
    obtain ⟨u, m₂, hmake, hread⟩ := run_bind_eq_ok.1 hread
    obtain ⟨-, -, rfl⟩ := Mem.run_read_eq_ok hread
    unfold makeBytes at hmake
    split_ifs at hmake
    · cases hmake
    · exact (Prod.mk.inj (Except.ok.inj hmake)).2.symm

theorem feeReceiver_keeps
    (h : (feeReceiver st percentFee).run storageArray m = .ok (minter, m')) : m' = m := by
  unfold feeReceiver readAddress at h
  split_ifs at h
  · obtain ⟨a, m₁, hread, h⟩ := run_bind_eq_ok.1 h
    obtain ⟨-, rfl⟩ := Prod.mk.inj (Except.ok.inj h)
    obtain ⟨addr, m₂, hfield, hret⟩ := run_bind_eq_ok.1 hread
    obtain ⟨-, rfl⟩ := Prod.mk.inj (Except.ok.inj hret)
    exact readField_keeps hfield
  · exact (Prod.mk.inj (Except.ok.inj h)).2.symm

theorem makePayment_bind {str : StorageStream} {f : StorageStream → Processor.StateAct β}
    (h : (makePayment st str caller owner value percentFee >>= f).exec j = (.ok b, j')) :
    ∃ minter str' s, (value ≠ 0 → (feeReceiver st percentFee).run storageArray str.view =
        .ok (minter, str.view)) ∧ str'.view = str.view ∧ str'.tokenAddress = str.tokenAddress ∧
      str'.stateDb = str.stateDb ∧ SameStorage j.current s ∧
      Paid j.current s caller owner minter value (feeOf minter owner value percentFee) ∧
      (f str').exec ⟨s, j.saved⟩ = (.ok b, j') := by
  rw [makePayment, bind_assoc] at h
  obtain ⟨u, hcovered, h⟩ := exec_attempt_bind_eq_ok.1 h
  have hcovered := Int.not_lt.1 (failIf_eq_ok.1 hcovered)
  by_cases hvalue : value = 0
  · rw [if_pos hvalue, pure_bind] at h
    refine ⟨none, str, j.current, fun hne => absurd hvalue hne, rfl, rfl, rfl, ⟨rfl, rfl⟩,
      ⟨hcovered, fun a => ?_⟩, h⟩
    simp [feeOf, hvalue]
  rw [if_neg hvalue, settlePayment, bind_assoc] at h
  obtain ⟨⟨minter, str'⟩, hrun, h⟩ := exec_attempt_bind_eq_ok.1 h
  have hview := run_refines stream_refines (feeReceiver st percentFee) str
  rw [hrun] at hview
  have hkeep := feeReceiver_keeps hview.symm
  obtain ⟨htoken, hdb⟩ := run_stream_keeps hrun
  rw [bind_assoc] at h
  obtain ⟨s, hsame, hfee, h⟩ := takeFee_bind h
  refine ⟨minter, str', _, fun _ => ?_, hkeep, htoken, hdb,
    hsame.trans (sameStorage_pay s caller owner _), ⟨hcovered, fun a => ?_⟩, h⟩
  · rw [← hview]
    exact congrArg (fun v => Except.ok (minter, v)) hkeep
  · rw [getBalance_pay, hfee a]
    split_ifs <;> ring

end

/-! ## Handlers -/

variable {ret ret' : Bytes} {v : ℤ} {tokenId newCost : Option ℤ}

/-- What an operation does to the storage of a token, and what it logs. -/
inductive Processor.Handled (p : Processor) (caller token : Address) (value : ℤ) (m : Mem) :
    TokenOp → Mem → List Log → Prop where
  | transfer {std : Std} {dst : Address} {v : ℤ} {u : Unit} {m' : Mem} : v.natAbs < 2 ^ 256 →
      (p.transferStorage caller std dst v).run storageArray m = .ok (u, m') →
      Handled p caller token value m (.transfer std dst v) m'
        (if std = stdWRC20 then [p.transferEvent token caller dst (bytesBE 32 v.natAbs)] else [])
  | transferFrom {std : Std} {src dst : Address} {v : ℤ} {u : Unit} {m' : Mem} :
      v.natAbs < 2 ^ 256 →
      (p.transferFromStorage caller std src dst v).run storageArray m = .ok (u, m') →
      Handled p caller token value m (.transferFrom std src dst v) m'
        (if std = stdWRC20 ∨ std = stdWRC721 then
          [p.transferEvent token src dst (bytesBE 32 v.natAbs)] else [])
  | approve {std : Std} {spender : Address} {v : ℤ} {u : Unit} {m' : Mem} :
      (p.approveStorage caller std spender v).run storageArray m = .ok (u, m') →
      Handled p caller token value m (.approve std spender v) m'
        (if std = stdWRC20 ∨ std = stdWRC721 then
          [p.approvalEvent token caller spender (bytesBE 32 v.natAbs)] else [])
  | mint {std : Std} {dst : Address} {v : ℤ} {metadata : Bytes} {u : Unit} {m' : Mem} :
      v.natAbs < 2 ^ 256 →
      (p.mintStorage caller std dst v metadata).run storageArray m = .ok (u, m') →
      Handled p caller token value m (.mint std dst v metadata) m'
        [p.transferEvent token 0 dst (bytesBE 32 v.natAbs)]
  | burn {std : Std} {v : ℤ} {owner : Address} {m' : Mem} : v.natAbs < 2 ^ 256 →
      (p.burnStorage caller std v).run storageArray m = .ok (owner, m') →
      Handled p caller token value m (.burn std v) m'
        [p.transferEvent token owner 0 (bytesBE 32 v.natAbs)]
  | setApprovalForAll {std : Std} {operator : Address} {approved : Bool} {u : Unit} {m' : Mem} :
      (p.setApprovalForAllStorage caller std operator approved).run storageArray m = .ok (u, m') →
      Handled p caller token value m (.setApprovalForAll std operator approved) m'
        [p.approvalForAllEvent token caller operator approved]
  | setPrice {tokenId : Option ℤ} {v : ℤ} {u : Unit} {m' : Mem} :
      (p.setPriceStorage caller tokenId v).run storageArray m = .ok (u, m') →
      Handled p caller token value m (.setPrice tokenId v) m' []
  | buy {tokenId newCost : Option ℤ} {r : Storage × Purchase} {m' : Mem} :
      r.2.transferValue.natAbs < 2 ^ 256 →
      (p.buyStorage caller value tokenId newCost).run storageArray m = .ok (r, m') →
      Handled p caller token value m (.buy tokenId newCost) m'
        [p.transferEvent token r.2.transferFrom caller (bytesBE 32 r.2.transferValue.natAbs)]
  | query : Handled p caller token value m .query m []

/-- A purchase: the storage, the event and the coins. -/
theorem buy_eq_ok (h : (p.buy caller token value tokenId newCost).exec j = (.ok ret, j')) :
    ∃ r : Storage × Processor.Purchase, r.2.transferValue.natAbs < 2 ^ 256 ∧
      (p.buyStorage caller value tokenId newCost).run storageArray (storageBytes j.current token) =
        .ok (r, storageBytes j'.current token) ∧ j'.current.logs = j.current.logs ++
        [p.transferEvent token r.2.transferFrom caller (bytesBE 32 r.2.transferValue.natAbs)] ∧
      ∃ minter, (r.2.paymentValue ≠ 0 → (feeReceiver r.1 r.2.percentFee).run storageArray
            (storageBytes j'.current token) = .ok (minter, storageBytes j'.current token)) ∧
        Paid j.current j'.current caller r.2.transferFrom minter r.2.paymentValue
          (feeOf minter r.2.transferFrom r.2.paymentValue r.2.percentFee) := by
  obtain ⟨r, str, hrun, htoken, hdb, h⟩ := withStorage_bind h
  obtain ⟨minter, str', s, hminter, hview, htoken', hdb', hsame, hpaid, h⟩ := makePayment_bind h
  obtain ⟨s', hstored, hlogs, hbal, h⟩ := flush_bind (htoken'.trans htoken)
    (by rw [hdb', hdb, hsame.1]) h
  obtain ⟨hlt, h⟩ := emit_bind h
  obtain ⟨-, rfl⟩ := Prod.mk.inj h
  have hfinal : storageBytes s' token = str.view := hstored.trans hview
  rw [← hfinal] at hrun hminter
  refine ⟨r, hlt, hrun, ?_, minter, hminter, hpaid.covered, fun a => ?_⟩
  · change s'.logs ++ _ = _
    rw [hlogs, hsame.2]
  · exact (congrFun hbal a).trans (hpaid.balance a)

/-- The common form of `transfer`, `transferFrom` and `approve`. -/
theorem report_eq_ok {prog : StorageProg Unit} {c : Bool} {log : Bytes → Log}
    (h : (do
      attempt fun _ => failIf (token = 0) .noAddress
      let r ← withStorage token prog
      write r.2.flush
      let ret ← attempt fun _ => fillBytes v
      emitIf c log v
      return ret : Processor.StateAct Bytes).exec j = (.ok ret, j')) :
    v.natAbs < 2 ^ 256 ∧
      prog.run storageArray (storageBytes j.current token) =
        .ok ((), storageBytes j'.current token) ∧
      j'.current.logs = j.current.logs ++ if c then [log (bytesBE 32 v.natAbs)] else [] := by
  obtain ⟨-, -, h⟩ := exec_attempt_bind_eq_ok.1 h
  obtain ⟨u, str, hrun, htoken, hdb, h⟩ := withStorage_bind h
  obtain ⟨s, hstored, hlogs, -, h⟩ := flush_bind htoken (by rw [hdb]) h
  obtain ⟨d, hd, h⟩ := exec_attempt_bind_eq_ok.1 h
  obtain ⟨s', hstored', hlogs', h⟩ := emitIf_bind token h
  obtain ⟨-, rfl⟩ := Prod.mk.inj h
  rw [← hstored, ← hstored'] at hrun
  exact ⟨(fillBytes_eq_ok hd).1, hrun, hlogs'.trans (by rw [hlogs])⟩

/-- The common form of `mint` and `burn`. -/
theorem emit_eq_ok {α : Type} (log : α → Bytes → Log) {prog : StorageProg α} (h : (do
      let r ← withStorage token prog
      write r.2.flush
      emit (log r.1) v
      return ret' : Processor.StateAct Bytes).exec j = (.ok ret, j')) :
    ∃ a, v.natAbs < 2 ^ 256 ∧
      prog.run storageArray (storageBytes j.current token) =
        .ok (a, storageBytes j'.current token) ∧
      j'.current.logs = j.current.logs ++ [log a (bytesBE 32 v.natAbs)] := by
  obtain ⟨a, str, hrun, htoken, hdb, h⟩ := withStorage_bind h
  obtain ⟨s, hstored, hlogs, -, h⟩ := flush_bind htoken (by rw [hdb]) h
  obtain ⟨hlt, h⟩ := emit_bind h
  obtain ⟨-, rfl⟩ := Prod.mk.inj h
  rw [← hstored] at hrun
  exact ⟨a, hlt, hrun, congrArg (· ++ _) hlogs⟩

/-- What the handlers do. -/
theorem handle_eq_ok {o : TokenOp} (hcreate : ∀ op, o ≠ .create op)
    (h : (p.handle caller token value o).exec j = (.ok ret, j')) :
    ∃ logs, p.Handled caller token value (storageBytes j.current token) o
      (storageBytes j'.current token) logs ∧ j'.current.logs = j.current.logs ++ logs := by
  cases o with
  | create op => exact absurd rfl (hcreate op)
  | transfer std dst v =>
    obtain ⟨hlt, hrun, hlogs⟩ := report_eq_ok h
    exact ⟨_, .transfer hlt hrun, by simpa using hlogs⟩
  | transferFrom std src dst v =>
    obtain ⟨hlt, hrun, hlogs⟩ := report_eq_ok h
    exact ⟨_, .transferFrom hlt hrun, by simpa using hlogs⟩
  | approve std spender v =>
    obtain ⟨-, hrun, hlogs⟩ := report_eq_ok h
    exact ⟨_, .approve hrun, by simpa using hlogs⟩
  | mint std dst v metadata =>
    rw [handle, Processor.mint] at h
    obtain ⟨u, hlt, hrun, hlogs⟩ := emit_eq_ok (fun _ => p.transferEvent token 0 dst) h
    exact ⟨_, .mint hlt hrun, hlogs⟩
  | burn std v =>
    rw [handle, Processor.burn] at h
    obtain ⟨owner, hlt, hrun, hlogs⟩ := emit_eq_ok (p.transferEvent token · 0) h
    exact ⟨_, .burn hlt hrun, hlogs⟩
  | setApprovalForAll std operator approved =>
    obtain ⟨u, str, hrun, htoken, hdb, h⟩ := withStorage_bind h
    obtain ⟨s, hstored, hlogs, -, h⟩ := flush_bind htoken (by rw [hdb]) h
    obtain ⟨-, rfl⟩ := Prod.mk.inj h
    rw [← hstored] at hrun
    exact ⟨_, .setApprovalForAll hrun, congrArg (· ++ _) hlogs⟩
  | setPrice tokenId v =>
    obtain ⟨u, str, hrun, htoken, hdb, h⟩ := withStorage_bind h
    obtain ⟨s, hstored, hlogs, -, h⟩ := flush_bind htoken (by rw [hdb]) h
    obtain ⟨-, rfl⟩ := Prod.mk.inj h
    rw [← hstored] at hrun
    exact ⟨[], .setPrice hrun, by rw [List.append_nil]; exact hlogs⟩
  | buy tokenId newCost =>
    obtain ⟨r, hlt, hrun, hlogs, -⟩ := buy_eq_ok h
    exact ⟨_, .buy hlt hrun, hlogs⟩
  | query =>
    obtain ⟨-, rfl⟩ := Prod.mk.inj h
    exact ⟨[], .query, (List.append_nil _).symm⟩

/-! ## Calls -/

section
variable {s s' : StateDB} {ret : Bytes}
variable {o : TokenOp}

theorem perform_eq_ok (h : p.perform s caller token value o = (.ok ret, s')) :
    ∃ j' : Journaled StateDB, j'.current = s' ∧ (p.handle caller token value o).exec
        ⟨s.setNonce caller (s.getNonce caller + 1), s.setNonce caller (s.getNonce caller + 1)⟩ =
        (.ok ret, j') := by
  obtain ⟨j', hexec, hcur⟩ := exec_of_revertOnError h
  exact ⟨j', hcur, hexec⟩

theorem storageBytes_setNonce (a b : Address) (n : UInt64) :
    storageBytes (s.setNonce a n) b = storageBytes s b := by
  have hstate : (s.setNonce a n).getState b = s.getState b :=
    funext fun k => getState_setNonce n k
  rw [storageBytes, hstate]
  rfl

theorem call_of_not_create (hcreate : ∀ op, o ≠ .create op) :
    p.call s caller token value o = p.perform s caller token value o := by
  cases o with
  | create op => exact absurd rfl (hcreate op)
  | _ => rfl

/-- What a successful call on a token does. -/
theorem call_eq_ok (hcreate : ∀ op, o ≠ .create op)
    (h : p.call s caller token value o = (.ok ret, s')) :
    ∃ logs, p.Handled caller token value (storageBytes s token) o (storageBytes s' token) logs ∧
      s'.logs = s.logs ++ logs := by
  rw [call_of_not_create hcreate] at h
  obtain ⟨j', rfl, hexec⟩ := perform_eq_ok h
  obtain ⟨logs, hhandled, hlogs⟩ := handle_eq_ok hcreate hexec
  rw [storageBytes_setNonce] at hhandled
  exact ⟨logs, hhandled, hlogs⟩

/-- A failed call leaves the storage of every token. -/
theorem storageBytes_of_call_error {e : TokenError} {a : Address}
    (h : p.call s caller token value o = (.error e, s')) :
    storageBytes s' a = storageBytes s a := by
  by_cases hrefuse : p.Refuses s caller token o
  · have hs : (p.call s caller token value o).2 = s := p.call_of_refuses hrefuse
    rw [h] at hs
    exact congrArg (storageBytes · a) hs
  · obtain ⟨token', hcall⟩ : ∃ token', p.call s caller token value o =
        p.perform s caller token' value o := p.call_of_not_refuses hrefuse
    rw [hcall] at h
    obtain rfl := revertOnError_of_error (p.journals_handle caller token' value o).undoable h
    exact storageBytes_setNonce caller a _

theorem storageBytes_newAccount (s : StateDB) (token : Address) :
    storageBytes ((s.createAccount token).setNonce token 1) token = emptyStorage := by
  refine storageBytes_of_zero (funext fun k => ?_)
  rw [getState_setNonce]
  unfold getState createAccount
  rw [acct_modify_self]

/-- A creation works on the storage of a new account. -/
theorem create_eq_ok {op : CreateOp} (htoken : token = p.createAddress caller (s.getNonce caller))
    (h : p.call s caller 0 value (.create op) = (.ok ret, s')) :
    (p.createStorage caller op).run storageArray emptyStorage = .ok ((), storageBytes s' token) ∧
      s'.logs = s.logs ++ [p.creationEvent caller token op.kind] := by
  subst htoken
  unfold call at h
  simp only [ne_eq, not_true_eq_false, if_false] at h
  split_ifs at h
  · cases h
  obtain ⟨j', rfl, hexec⟩ := perform_eq_ok h
  obtain ⟨-, -, hexec⟩ := exec_attempt_bind_eq_ok.1 hexec
  rw [exec_write_bind, exec_write_bind] at hexec
  obtain ⟨⟨u, str⟩, hrun, hexec⟩ := exec_attempt_bind_eq_ok.1 hexec
  obtain ⟨hview, htoken, hdb⟩ := onStorage_eq_ok hrun
  rw [storageBytes_newAccount] at hview
  obtain ⟨s₁, hstored, hlogs, -, hexec⟩ := flush_bind htoken (by rw [hdb]) hexec
  obtain ⟨-, rfl⟩ := Prod.mk.inj hexec
  rw [← hstored] at hview
  exact ⟨hview, congrArg (· ++ _) hlogs⟩

end

end Gwat.Token
