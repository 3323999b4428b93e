/-
  Token operations do not crash a node, but for one.
-/
import Gwat.Token.Purchase

namespace Gwat.Token

open GoLib ByteProg Act Processor StateDB

variable {op : CreateOp} {m m' : Mem} {st : Storage} {p : Processor} {α β : Type}

/-! ## Handlers -/

section
variable {j : Journaled StateDB} {token owner : Address}
variable {prog : StorageProg α} {log : Bytes → Log} {v : ℤ} {str : StorageStream}

theorem avoids_exec_attempt_bind {g : StateDB → Except TokenError α}
    {f : α → Processor.StateAct β} (hg : Avoids .panic (g j.current))
    (h : ∀ a, g j.current = .ok a → Avoids .panic ((f a).exec j).1) :
    Avoids .panic ((attempt g >>= f).exec j).1 := by
  cases hresult : g j.current with
  | error e =>
    rw [exec_bind_of_error (show (attempt g).exec j = (.error e, j) by rw [exec_attempt, hresult])]
    rw [hresult] at hg
    exact avoids_error.2 (avoids_error.1 hg)
  | ok a =>
    rw [exec_attempt_bind_of_ok hresult]
    exact h a hresult

theorem avoids_run_stream (h : Avoids .panic (prog.run storageArray str.view)) :
    Avoids .panic (prog.run stream str) := by
  intro herr
  have hview := run_refines stream_refines prog str
  rw [herr] at hview
  exact h hview.symm

theorem avoids_withStorage_bind {Q : α → Mem → Prop} {f : α × StorageStream → Processor.StateAct β}
    (hprog : Ends Q (prog.run storageArray (storageBytes j.current token)))
    (h : ∀ a str, Q a str.view → Avoids .panic ((f (a, str)).exec j).1) :
    Avoids .panic ((withStorage token prog >>= f).exec j).1 := by
  refine avoids_exec_attempt_bind ?_ fun r hr => ?_
  · rw [avoids_failIf_bind (by decide)]
    intro _
    exact avoids_run_stream (by exact hprog.1)
  · obtain ⟨u, -, hrun⟩ := bind_eq_ok.1 hr
    obtain ⟨hview, -⟩ := onStorage_eq_ok hrun
    exact h r.1 r.2 (hprog.2 _ _ hview)

theorem avoids_emit_bind {f : Unit → Processor.StateAct β} (hv : v.natAbs < 2 ^ 256)
    (h : ∀ s, Avoids .panic ((f ()).exec ⟨s, j.saved⟩).1) :
    Avoids .panic ((emit log v >>= f).exec j).1 := by
  rw [exec_bind_of_ok (exec_emit hv)]
  exact h _

/-- The common form of `transfer`, `transferFrom` and `approve`. -/
theorem avoids_report {prog : StorageProg Unit} {c : Bool}
    (hprog : token ≠ 0 → Ends (fun _ _ => v.natAbs < 2 ^ 256)
      (prog.run storageArray (storageBytes j.current token))) :
    Avoids .panic ((do
      attempt fun _ => failIf (token = 0) .noAddress
      let r ← withStorage token prog
      write r.2.flush
      let ret ← attempt fun _ => fillBytes v
      emitIf c log v
      return ret : Processor.StateAct Bytes).exec j).1 := by
  refine avoids_exec_attempt_bind (by simp) fun _ htoken => ?_
  refine avoids_withStorage_bind (hprog (failIf_eq_ok.1 htoken)) fun _ str hv => ?_
  have hfill : fillBytes v = .ok (bytesBE 32 v.natAbs) := if_neg (Nat.not_le.2 hv)
  rw [exec_write_bind]
  refine avoids_exec_attempt_bind (by rw [hfill]; exact avoids_ok _) fun ret _ => ?_
  unfold emitIf
  split_ifs
  · exact avoids_emit_bind hv fun s => avoids_ok _
  · exact avoids_ok _

variable {caller : Address} {value : ℤ} {o : TokenOp}

/-- The common form of `mint` and `burn`. -/
theorem avoids_emit (log : α → Bytes → Log) {ret : Bytes}
    (hprog : Ends (fun _ _ => v.natAbs < 2 ^ 256)
      (prog.run storageArray (storageBytes j.current token))) :
    Avoids .panic ((do
      let r ← withStorage token prog
      write r.2.flush
      emit (log r.1) v
      return ret : Processor.StateAct Bytes).exec j).1 := by
  refine avoids_withStorage_bind hprog fun a str hv => ?_
  rw [exec_write_bind]
  exact avoids_emit_bind hv fun s => avoids_ok _

theorem avoids_makePayment_bind {percentFee : UInt8} {f : StorageStream → Processor.StateAct β}
    (hfee : Avoids .panic ((feeReceiver st percentFee).run storageArray str.view))
    (h : ∀ str s, Avoids .panic ((f str).exec ⟨s, j.saved⟩).1) :
    Avoids .panic ((makePayment st str caller owner v percentFee >>= f).exec j).1 := by
  rw [makePayment, bind_assoc]
  refine avoids_exec_attempt_bind (by simp) fun _ _ => ?_
  split_ifs
  · exact h str j.current
  · rw [settlePayment, bind_assoc]
    refine avoids_exec_attempt_bind (avoids_run_stream hfee) fun r _ => ?_
    obtain ⟨left, s', htake⟩ := exec_takeFee (j := j) caller owner r.1 v percentFee
    rw [bind_assoc, exec_bind_of_ok htake, bind_assoc, exec_write_bind, bind_assoc, exec_write_bind]
    exact h _ _

section
variable (hp : p.NoCollision) (hlaid : Laid op (storageBytes j.current token))
  {tokenId newCost : Option ℤ}
include hp hlaid

theorem avoids_buy (hdec : (TokenOp.buy tokenId newCost).Decoded) :
    Avoids .panic ((p.buy caller token value tokenId newCost).exec j).1 := by
  cases hkind : op.kind with
  | wrc20 decimals totalSupply =>
    refine avoids_withStorage_bind (buyStorage_wrc20 _ hp hlaid hkind) ?_
    rintro ⟨st, purchase⟩ str ⟨-, n, rfl, -, -, hstep⟩
    have hn : n < 2 ^ 256 :=
      lt_of_le_of_lt (hstep.covered _ List.mem_cons_self) (p.balanceOf_lt _ _)
    refine avoids_makePayment_bind (avoids_ok _) fun str' s => ?_
    rw [exec_write_bind]
    exact avoids_emit_bind hn fun s => avoids_ok _
  | wrc721 baseURI percentFee =>
    refine avoids_withStorage_bind (buyStorage_wrc721 _ hp hlaid hkind hdec.1 hdec.2).ends ?_
    rintro ⟨st, purchase⟩ str ⟨hst, id, -, rfl, -⟩
    refine avoids_makePayment_bind ?_ fun str' s => ?_
    · rw [run_feeReceiver hkind hst]
      exact avoids_ok _
    · rw [exec_write_bind]
      exact avoids_emit_bind (by decide : (1 : ℤ).natAbs < 2 ^ 256) fun s => avoids_ok _

theorem avoids_handle (hcreate : ∀ op', o ≠ .create op') (hdec : o.Decoded)
    (hsafe : ∀ dst v, o = .transfer stdWRC721 dst v → op.kind.standard = stdWRC721 →
      token ≠ 0 → v < 2 ^ 256) : Avoids .panic ((p.handle caller token value o).exec j).1 := by
  cases o with
  | create op' => exact absurd rfl (hcreate op')
  | transfer std dst v =>
    lift v to ℕ using hdec
    refine avoids_report fun htoken => ?_
    cases hkind : op.kind with
    | wrc20 _ _ =>
      exact (transferStorage_wrc20 0 hp hlaid hkind).mono fun _ _ hq => hq.2.1
    | wrc721 _ _ =>
      refine (transferStorage_wrc721 hlaid hkind).mono ?_
      rintro _ _ ⟨rfl, -⟩
      exact_mod_cast hsafe dst v rfl (standard_wrc721 hkind) htoken
  | transferFrom std src dst v =>
    lift v to ℕ using hdec
    refine avoids_report fun _ => ?_
    cases hkind : op.kind with
    | wrc20 _ _ =>
      exact (transferFromStorage_wrc20 0 hp hlaid hkind).mono
        fun _ _ hq => hq.2.1
    | wrc721 _ _ =>
      exact (transferFromStorage_wrc721 0 hp hlaid hkind).1.mono
        fun _ _ hq => hq.2.1
  | approve std spender v =>
    lift v to ℕ using hdec
    refine avoids_report fun _ => ?_
    cases hkind : op.kind with
    | wrc20 _ _ =>
      exact (approveStorage_wrc20 0 hp hlaid hkind).mono fun _ _ hq => hq.2.1
    | wrc721 _ _ =>
      exact (approveStorage_wrc721 0 hp hlaid hkind).mono fun _ _ hq => hq.2.1
  | mint std dst v metadata =>
    refine avoids_emit (fun _ => p.transferEvent token 0 dst) ?_
    cases hkind : op.kind with
    | wrc20 _ _ => exact mintStorage_wrc20 hlaid hkind
    | wrc721 _ _ =>
      exact (mintStorage_wrc721 0 hp hlaid hkind).1.mono fun _ _ hq => hq.2.1
  | burn std v =>
    refine avoids_emit (p.transferEvent token · 0) ?_
    cases hkind : op.kind with
    | wrc20 _ _ => exact burnStorage_wrc20 hlaid hkind
    | wrc721 _ _ =>
      exact (burnStorage_wrc721 0 hp hlaid hkind).1.mono fun _ _ hq => hq.2.1
  | setApprovalForAll std operator approved =>
    refine avoids_withStorage_bind (Q := fun _ _ => True) ?_ fun _ str _ => avoids_ok _
    cases hkind : op.kind with
    | wrc20 _ _ => exact setApprovalForAllStorage_wrc20 hlaid hkind
    | wrc721 _ _ => exact (setApprovalForAllStorage_wrc721 hp hlaid hkind).mono fun _ _ _ => trivial
  | setPrice tokenId v =>
    obtain ⟨hid, hv⟩ := hdec
    lift v to ℕ using hv
    refine avoids_withStorage_bind (Q := fun _ _ => True) ?_ fun _ str _ => avoids_ok _
    cases hkind : op.kind with
    | wrc20 _ _ =>
      exact (setPriceStorage_wrc20 0 hp hlaid hkind).mono fun _ _ _ => trivial
    | wrc721 _ _ =>
      exact (setPriceStorage_wrc721 0 hp hlaid hkind hid).1.mono
        fun _ _ _ => trivial
  | buy tokenId newCost => exact avoids_buy hp hlaid hdec
  | query => exact avoids_ok _

end

end

/-! ## Calls -/

section
variable {s : StateDB} {caller token dst : Address} {value v : ℤ} {o : TokenOp} {H : List Done}

theorem revertOnError_fst {x : Processor.StateAct α} (s : StateDB) :
    (revertOnError x s).1 = (x.exec ⟨s, s⟩).1 := by
  unfold revertOnError
  rcases x.exec ⟨s, s⟩ with ⟨e | a, j⟩ <;> rfl

theorem avoids_create (hp : p.NoCollision) (op' : CreateOp) :
    Avoids .panic (p.call s caller token value (.create op')).1 := by
  have hstorage : Ends (fun _ _ => True) ((p.createStorage caller op').run storageArray emptyStorage) := by
    cases hkind : op'.kind with
    | wrc20 decimals totalSupply =>
      obtain ⟨m, -, -, hrun⟩ := run_createStorage_wrc20 hp caller hkind emptyStorage
      rw [hrun]
      cases hsupply : fromBigChecked totalSupply with
      | error e => exact ends_error (avoids_error.1 (hsupply ▸ avoids_fromBigChecked totalSupply))
      | ok n => exact ends_ok trivial
    | wrc721 baseURI percentFee =>
      obtain ⟨m, -, -, -, -, hrun⟩ := run_createStorage_wrc721 hp caller hkind emptyStorage
      rw [hrun]
      exact ends_ok trivial
  unfold call
  split_ifs
  · exact nofun
  · exact nofun
  · rw [perform, revertOnError_fst, handle, tokenCreate]
    refine avoids_exec_attempt_bind (by simp) fun _ _ => ?_
    rw [exec_write_bind, exec_write_bind]
    refine avoids_exec_attempt_bind (avoids_run_stream ?_) fun r _ => avoids_ok _
    rw [view_newStorageStream, storageBytes_newAccount]
    exact hstorage.1

theorem exist_of_laid (h : Laid op (storageBytes s token)) : s.exist token = true := by
  by_contra hnot
  have hnone : s.accounts token = none := by
    rw [exist, Bool.not_eq_true, Option.isSome_eq_false_iff, Option.isNone_iff_eq_none] at hnot
    exact hnot
  have hempty : storageBytes s token = emptyStorage := by
    refine storageBytes_of_zero (funext fun k => ?_)
    rw [getState, acct, hnone]
    rfl
  rw [hempty] at h
  obtain ⟨-, hstd⟩ := Mem.holds_append.1 h
  rw [Mem.Holds, read_emptyStorage, stdMarshal, length_bytesBE] at hstd
  cases hkind : op.kind with
  | wrc20 _ _ =>
    rw [standard_wrc20 hkind] at hstd
    exact absurd hstd (by decide)
  | wrc721 _ _ =>
    rw [standard_wrc721 hkind] at hstd
    exact absurd hstd (by decide)

theorem TokenRun.laid (hp : p.NoCollision) (h : TokenRun p op token H s) :
    Laid op (storageBytes s token) := by
  cases hkind : op.kind with
  | wrc20 _ _ => exact h.laid_wrc20 hp hkind
  | wrc721 _ _ => exact (h.fields_wrc721 hp hkind).1

theorem transfer_panics {baseURI : Bytes} {percentFee : UInt8}
    (hlaid : Laid op (storageBytes s token)) (hkind : op.kind = .wrc721 baseURI percentFee)
    (htoken : token ≠ 0) (hv : 2 ^ 256 ≤ v) :
    (p.call s caller token value (.transfer stdWRC721 dst v)).1 = .error .panic := by
  let s₁ := s.setNonce caller (s.getNonce caller + 1)
  have hlive : Live s₁ token (storageBytes s token) :=
    Live.setNonce ⟨exist_of_laid hlaid, rfl⟩ _ _
  have hrun : (p.transferStorage caller stdWRC721 dst v).run storageArray (storageBytes s token) =
      .ok ((), storageBytes s token) := by
    obtain ⟨st, -, hopen⟩ := run_newStorage stdWRC721 hlaid
    rw [if_pos (standard_wrc721 hkind).symm] at hopen
    rw [transferStorage, run_bind, hopen, ok_bind, if_neg (by decide)]
    rfl
  obtain ⟨str, -, -, -, hexec⟩ := exec_withStorage (j := ⟨s₁, s₁⟩) hlive hrun
  have hfill : fillBytes v = .error .panic := if_pos (by omega)
  have hperform : p.call s caller token value (.transfer stdWRC721 dst v) =
    p.perform s caller token value (.transfer stdWRC721 dst v) := rfl
  rw [hperform, perform, revertOnError_fst, handle, Processor.transfer,
    exec_attempt_bind_of_ok (g := fun _ : StateDB => failIf (token = 0) TokenError.noAddress)
      (failIf_of_not htoken), exec_bind_of_ok hexec, exec_write_bind,
    exec_bind_of_error (x := attempt fun _ : StateDB => fillBytes v) (by rw [exec_attempt, hfill])]

/-- A call on a token panics exactly when it is a transfer of 2^256 or more on a WRC-721 token. -/
theorem call_avoids_panic_iff (hp : p.NoCollision) (h : TokenRun p op token H s)
    (hdec : o.Decoded) :
    (p.call s caller token value o).1 ≠ .error .panic ↔
      ¬ ∃ dst v, o = .transfer stdWRC721 dst v ∧ 2 ^ 256 ≤ v ∧ op.kind.standard = stdWRC721 ∧
        token ≠ 0 := by
  have hlaid := h.laid hp
  constructor
  · rintro havoids ⟨dst, v, rfl, hv, hstd, htoken⟩
    cases hkind : op.kind with
    | wrc20 _ _ =>
      rw [standard_wrc20 hkind] at hstd
      exact absurd hstd (by decide)
    | wrc721 _ _ => exact havoids (transfer_panics hlaid hkind htoken hv)
  · intro hsafe
    by_cases hcreate : ∃ op', o = .create op'
    · obtain ⟨op', rfl⟩ := hcreate
      exact avoids_create hp op'
    · rw [call_of_not_create fun op' ho => hcreate ⟨op', ho⟩, perform, revertOnError_fst]
      refine avoids_handle hp (by rwa [storageBytes_setNonce])
        (fun op' ho => hcreate ⟨op', ho⟩) hdec fun dst v ho hstd htoken => ?_
      by_contra hv
      exact hsafe ⟨dst, v, ho, Int.not_lt.1 hv, hstd, htoken⟩

end

/-- A transfer of 7 on a WRC-721 token returns. -/
theorem small_transfer_returns : ∃ s₁ s₂,
    TokenRun spaced (collection 0) 1001 [⟨s₁, 1, 0, .mint stdWRC721 1 5 [], s₂⟩,
      ⟨empty, 1, 0, .create (collection 0), s₁⟩] s₂ ∧
    (Processor.spaced.call s₂ 3 1001 0 (.transfer stdWRC721 2 7)).1 ≠ .error .panic := by
  obtain ⟨s₁, s₂, m, hrun, -⟩ := @exists_mintedRun idFive 1 empty 0 rfl rfl
  have hdec : (TokenOp.transfer stdWRC721 2 7).Decoded := (by decide : (0 : ℤ) ≤ 7)
  refine ⟨s₁, s₂, hrun, (call_avoids_panic_iff noCollision_spaced hrun hdec).2 ?_⟩
  rintro ⟨dst, v, ho, hv, -⟩
  obtain ⟨-, -, rfl⟩ := TokenOp.transfer.inj ho
  exact absurd hv (by norm_num)

/-- A transfer of 2^256 on a WRC-721 token panics. -/
theorem large_transfer_panics : ∃ s₁ s₂,
    TokenRun spaced (collection 0) 1001 [⟨s₁, 1, 0, .mint stdWRC721 1 5 [], s₂⟩,
      ⟨empty, 1, 0, .create (collection 0), s₁⟩] s₂ ∧
    (Processor.spaced.call s₂ 3 1001 0 (.transfer stdWRC721 2 (2 ^ 256))).1 = .error .panic := by
  obtain ⟨s₁, s₂, m, hrun, -⟩ := @exists_mintedRun idFive 1 empty 0 rfl rfl
  exact ⟨s₁, s₂, hrun, transfer_panics (hrun.laid noCollision_spaced)
    (rfl : (collection 0).kind = _) (by decide) le_rfl⟩

end Gwat.Token
