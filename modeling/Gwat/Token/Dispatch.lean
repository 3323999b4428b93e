/-
  What `TransitionDb` needs of the token processor: the operation in the data of a message, and the
  nonces that a call leaves (`token/operation`, `token/processor.go`).
-/
import Gwat.Token.IsToken
import Gwat.Token.Operation

namespace Gwat.Token

open GoLib Act StateDB

/-! ## The operation of a message -/

/-- The operation as the cases of `Call` take it.  The texts of a creation come with one transaction
    and are short. -/
def Operation.tokenOp? : Operation → Option TokenOp
  | create std name symbol decimals totalSupply baseURI percentFee =>
    let kind : CreateKind :=
      if std = stdWRC20 then .wrc20 decimals (totalSupply.getD 0)
      else .wrc721 (baseURI.getD []) percentFee
    if h : name.length + symbol.length + kind.baseURI.length < 2 ^ 48 then
      some (.create ⟨name, symbol, kind, h⟩)
    else none
  | approve std value spender => some (.approve std spender value)
  | transfer std value toAddr => some (.transfer std toAddr value)
  | transferFrom std value toAddr fromAddr => some (.transferFrom std fromAddr toAddr value)
  | safeTransferFrom std value toAddr fromAddr _ => some (.transferFrom std fromAddr toAddr value)
  | setApprovalForAll std operator approved => some (.setApprovalForAll std operator approved)
  | mint std toAddr id metadata => some (.mint std toAddr id metadata)
  | burn std id => some (.burn std id)
  | setPrice value id => some (.setPrice id value)
  | buy id newCost => some (.buy id newCost)
  | _ => some .query

/-- `DecodeBytes`, as `Call` sees it. -/
def decodeTokenOp (b : Bytes) : Except OpError TokenOp := do
  let op ← Operation.decodeBytes b
  match op.tokenOp? with
  | some op => return op
  | none => throw .rlp

/-! ## The nonces -/

namespace Processor

variable {p : Processor} {s : StateDB} {a caller token : Address} {value : ℤ} {op : TokenOp}
  {n : UInt64} {α : Type}

/-- The code leaves the nonce `n` of an account as it is. -/
abbrev KeepsNonce (a : Address) (n : UInt64) (x : StateAct α) : Prop :=
  Preserves (fun s => s.getNonce a = n) x

theorem keepsNonce_write {f : StateDB → StateDB} (h : ∀ s, (f s).getNonce a = s.getNonce a) :
    KeepsNonce a n (write f) :=
  preserves_write fun s hs => (h s).trans hs

theorem keepsNonce_addLog (l : Log) : KeepsNonce a n (write fun s => s.addLog l) :=
  keepsNonce_write fun _ => rfl

theorem keepsNonce_flush (st : StorageStream) : KeepsNonce a n (write st.flush) :=
  keepsNonce_write (flush_keeps (f := fun s => s.getNonce a) (fun _ _ _ _ => getNonce_setState _ _) st)

theorem keepsNonce_emit (log : Bytes → Log) (value : ℤ) : KeepsNonce a n (emit log value) :=
  (preserves_attempt _).bind fun _ => keepsNonce_addLog _

theorem keepsNonce_emitIf (c : Bool) (log : Bytes → Log) (value : ℤ) :
    KeepsNonce a n (emitIf c log value) := by
  unfold emitIf
  split_ifs
  · exact keepsNonce_emit log value
  · exact preserves_pure _

/-- The payment changes balances only. -/
theorem keepsNonce_makePayment (st : Storage) (str : StorageStream) (caller owner : Address)
    (value : ℤ) (percentFee : UInt8) :
    KeepsNonce a n (makePayment st str caller owner value percentFee) := by
  have hsub : ∀ b x, KeepsNonce a n (write fun s => s.subBalance b x) := fun _ _ =>
    keepsNonce_write fun _ => getNonce_subBalance _
  have hadd : ∀ b x, KeepsNonce a n (write fun s => s.addBalance b x) := fun _ _ =>
    keepsNonce_write fun _ => getNonce_addBalance _
  have hfee : ∀ minter, KeepsNonce a n (takeFee caller owner minter value percentFee) := by
    intro minter
    unfold takeFee
    cases minter with
    | none => exact preserves_pure _
    | some minter =>
      dsimp only
      split_ifs
      · exact (hsub _ _).bind fun _ => (hadd _ _).bind fun _ => preserves_pure _
      · exact preserves_pure _
  refine (preserves_attempt _).bind fun _ => ?_
  split_ifs
  · exact preserves_pure _
  · exact (preserves_attempt _).bind fun r => (hfee r.1).bind fun _ =>
      (hsub _ _).bind fun _ => (hadd _ _).bind fun _ => preserves_pure _

/-- An account in use is not the address of a new token. -/
theorem keepsNonce_tokenCreate (hn : n ≠ 0) (op : CreateOp) :
    KeepsNonce a n (p.tokenCreate caller token op) := by
  intro j hj
  by_cases ha : a = token
  · subst ha
    have hfail : (attempt fun s : StateDB =>
        failIf (s.getNonce a ≠ 0) TokenError.tokenAddressCollision).exec j =
          (.error .tokenAddressCollision, j) := by
      rw [exec_attempt, failIf, if_pos (by rw [hj]; exact hn)]
    unfold tokenCreate
    rw [exec_bind_of_error hfail]
    exact hj
  · have hwrites : KeepsNonce a n (p.tokenCreate caller token op) := by
      refine (preserves_attempt _).bind fun _ => ?_
      refine (keepsNonce_write fun s => ?_).bind fun _ => ?_
      · rw [getNonce_createAccount, if_neg ha]
      refine (keepsNonce_write fun s => ?_).bind fun _ => ?_
      · rw [getNonce_setNonce, if_neg ha]
      exact (preserves_attempt _).bind fun r => (keepsNonce_flush r.2).bind fun _ =>
        (keepsNonce_addLog _).bind fun _ => preserves_pure _
    exact hwrites j hj

theorem keepsNonce_handle (hn : n ≠ 0) : KeepsNonce a n (p.handle caller token value op) := by
  cases op with
  | create op => exact keepsNonce_tokenCreate hn op
  | buy tokenId newCost =>
    exact (preserves_attempt _).bind fun r => (keepsNonce_makePayment _ _ _ _ _ _).bind fun str =>
      (keepsNonce_flush str).bind fun _ => (keepsNonce_emit _ _).bind fun _ => preserves_pure _
  | query => exact preserves_pure _
  | _ =>
    -- the storage is read and stored, and an event is logged
    simp only [handle, transferFrom, transfer, approve, mint, burn, setApprovalForAll, setPrice,
      withStorage]
    repeat' with_reducible refine Preserves.bind ?_ fun _ => ?_
    all_goals
      simp only [preserves_attempt, preserves_pure, keepsNonce_flush, keepsNonce_emit,
        keepsNonce_emitIf, keepsNonce_addLog]

/-- A call uses up the nonce of the caller unless it refuses the operation. -/
theorem getNonce_call (hn : s.getNonce caller + 1 ≠ 0) :
    (¬ p.Refuses s caller token op →
        (p.call s caller token value op).2.getNonce caller = s.getNonce caller + 1) ∧
      (p.Refuses s caller token op →
        (p.call s caller token value op).2.getNonce caller = s.getNonce caller) := by
  constructor
  · intro h
    obtain ⟨token', hcall⟩ : ∃ token', p.call s caller token value op =
        p.perform s caller token' value op := p.call_of_not_refuses h
    have hset : (s.setNonce caller (s.getNonce caller + 1)).getNonce caller =
        s.getNonce caller + 1 := (getNonce_setNonce _).trans (if_pos rfl)
    rw [hcall]
    exact (keepsNonce_handle hn).revertOnError (p.journals_handle caller token' value op) hset
  · intro h
    rw [p.call_of_refuses h]

end Processor

end Gwat.Token
