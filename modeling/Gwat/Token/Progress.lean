/-
  Calls that succeed.
-/
import Gwat.Token.History

namespace Gwat.Token

open GoLib ByteProg Act Processor StateDB Function

variable {op : CreateOp} {p : Processor} {caller token : Address} {value : ℤ} {s : StateDB}
  {m m' : Mem}

/-! ## Calls -/

/-- The token exists, with the given storage. -/
structure Live (s : StateDB) (token : Address) (m : Mem) : Prop where
  exist : s.exist token = true
  storage : storageBytes s token = m

section
variable {α : Type} {j : Journaled StateDB}
variable {prog : StorageProg α} {a : α} {str : StorageStream} {v : ℤ} {o : TokenOp} {s' : StateDB}
  {std : Std} {dst owner src : Address} {u : Unit} {tokenId newCost : Option ℤ}
  {ret metadata baseURI : Bytes}

theorem onStorage_of_array (hrun : prog.run storageArray (storageBytes s token) = .ok (a, m')) :
    ∃ str, onStorage token prog s = .ok (a, str) ∧ str.view = m' ∧
      str.tokenAddress = token ∧ str.stateDb = s :=
  run_stream_of_array (newStorageStream token s) (by rwa [view_newStorageStream])

theorem exec_withStorage (hlive : Live j.current token m)
    (hrun : prog.run storageArray m = .ok (a, m')) :
    ∃ str, str.view = m' ∧ str.tokenAddress = token ∧ str.stateDb = j.current ∧
      (withStorage token prog).exec j = (.ok (a, str), j) := by
  obtain ⟨str, hstream, hview, htoken, hdb⟩ := onStorage_of_array (by rwa [hlive.storage])
  refine ⟨str, hview, htoken, hdb, ?_⟩
  rw [withStorage, exec_attempt, failIf_of_not (not_not.2 hlive.exist)]
  exact congrArg (·, j) hstream

theorem exist_flush {a : Address} (h : s.exist a = true) : (str.flush s).exist a = true := by
  unfold StorageStream.flush
  induction str.bufferedSlots.entries generalizing s with
  | nil => exact h
  | cons e l ih =>
    refine ih (StateDB.exist_modify.trans ?_)
    rw [h, Bool.or_true]

theorem live_flush (hexist : s.exist token = true) (hview : str.view = m')
    (htoken : str.tokenAddress = token) (hdb : s.getState token = str.stateDb.getState token) :
    Live (str.flush s) token m' ∧ (str.flush s).getBalance = s.getBalance := by
  subst htoken hview
  refine ⟨⟨exist_flush hexist, storageBytes_flush hdb⟩, flush_keeps (fun s a k v => ?_) str _⟩
  funext x
  exact getBalance_setState k v

theorem exec_emit {log : Bytes → Log} (h : v.natAbs < 2 ^ 256) : (emit log v).exec j =
      (.ok (), ⟨j.current.addLog (log (bytesBE 32 v.natAbs)), j.saved⟩) := by
  have hfill : fillBytes v = .ok (bytesBE 32 v.natAbs) := if_neg (Nat.not_le.2 h)
  rw [emit, exec_attempt_bind_of_ok hfill]
  rfl

theorem call_of_exec (saved : StateDB) (hcreate : ∀ op, o ≠ .create op)
    (h : (p.handle caller token value o).exec
      ⟨s.setNonce caller (s.getNonce caller + 1), s.setNonce caller (s.getNonce caller + 1)⟩ =
      (.ok ret, ⟨s', saved⟩)) : p.call s caller token value o = (.ok ret, s') := by
  rw [call_of_not_create hcreate, perform, revertOnError, h]

theorem Live.setNonce (hlive : Live s token m) (a : Address) (n : UInt64) :
    Live (s.setNonce a n) token m := by
  refine ⟨StateDB.exist_modify.trans ?_, (storageBytes_setNonce a token n).trans hlive.storage⟩
  rw [hlive.exist, Bool.or_true]

theorem getBalance_setNonce (s : StateDB) (a : Address) (n : UInt64) :
    (s.setNonce a n).getBalance = s.getBalance :=
  funext fun _ => StateDB.getBalance_setNonce n

theorem Live.congr (hlive : Live s token m) (h : s'.accounts = s.accounts) :
    Live s' token m ∧ s'.getBalance = s.getBalance := by
  have hacct : s'.acct = s.acct := by
    funext a
    rw [acct, h]
    rfl
  have hstate : s'.getState token = s.getState token := by
    funext k
    rw [getState, hacct]
    rfl
  refine ⟨⟨?_, ?_⟩, ?_⟩
  · rw [StateDB.exist, h]
    exact hlive.exist
  · rw [storageBytes, hstate]
    exact hlive.storage
  · funext a
    rw [getBalance, hacct]
    rfl

theorem call_stored
    {f : α × StorageStream → Processor.StateAct Bytes} (hcreate : ∀ op, o ≠ .create op)
    (hhandle : ∀ j, (p.handle caller token value o).exec j =
      (withStorage token prog >>= fun r => write r.2.flush >>= fun _ => f r).exec j)
    (hf : ∀ r j, ∃ ret s', (f r).exec j = (.ok ret, ⟨s', j.saved⟩) ∧
      s'.accounts = j.current.accounts)
    (hlive : Live s token m) (hrun : prog.run storageArray m = .ok (a, m')) :
    ∃ ret s', p.call s caller token value o = (.ok ret, s') ∧ Live s' token m' ∧
      s'.getBalance = s.getBalance := by
  let s₁ := s.setNonce caller (s.getNonce caller + 1)
  have hlive₁ : Live s₁ token m := hlive.setNonce _ _
  obtain ⟨str, hview, htoken, hdb, hexec⟩ := exec_withStorage (j := ⟨s₁, s₁⟩) hlive₁ hrun
  obtain ⟨hflushed, hbal⟩ := live_flush hlive₁.exist hview htoken (by rw [hdb])
  obtain ⟨ret, s', hret, haccounts⟩ := hf (a, str) ⟨str.flush s₁, s₁⟩
  obtain ⟨hlive', hbal'⟩ := hflushed.congr haccounts
  refine ⟨ret, s', call_of_exec s₁ hcreate ?_, hlive', ?_⟩
  · rw [hhandle, exec_bind_of_ok hexec, exec_write_bind]
    exact hret
  · rw [hbal', hbal]
    exact getBalance_setNonce s _ _

theorem call_mint (value : ℤ) (hlive : Live s token m) (hv : v.natAbs < 2 ^ 256)
    (hrun : (p.mintStorage caller std dst v metadata).run storageArray m = .ok (u, m')) :
    ∃ ret s', p.call s caller token value (.mint std dst v metadata) = (.ok ret, s') ∧
      Live s' token m' ∧ s'.getBalance = s.getBalance := by
  refine call_stored nofun (fun _ => rfl) (fun _ j => ?_) hlive hrun
  rw [exec_bind_of_ok (exec_emit hv)]
  exact ⟨_, _, rfl, rfl⟩

theorem call_burn (value : ℤ) (hlive : Live s token m) (hv : v.natAbs < 2 ^ 256)
    (hrun : (p.burnStorage caller std v).run storageArray m = .ok (owner, m')) :
    ∃ ret s', p.call s caller token value (.burn std v) = (.ok ret, s') ∧
      Live s' token m' ∧ s'.getBalance = s.getBalance := by
  refine call_stored nofun (fun _ => rfl) (fun _ j => ?_) hlive hrun
  rw [exec_bind_of_ok (exec_emit hv)]
  exact ⟨_, _, rfl, rfl⟩

theorem call_setPrice (value : ℤ) (hlive : Live s token m)
    (hrun : (p.setPriceStorage caller tokenId v).run storageArray m = .ok (u, m')) :
    ∃ ret s', p.call s caller token value (.setPrice tokenId v) = (.ok ret, s') ∧
      Live s' token m' ∧ s'.getBalance = s.getBalance :=
  call_stored nofun (fun _ => rfl) (fun _ j => ⟨token.bytes, j.current, rfl, rfl⟩) hlive hrun

/-- The operations that move or allow an amount and report it. -/
theorem call_amount {c : Bool} {log : Bytes → Log} (hcreate : ∀ op, o ≠ .create op)
    (hhandle : p.handle caller token value o = (do
      attempt fun _ => failIf (token = 0) .noAddress
      let r ← withStorage token prog
      write r.2.flush
      let ret ← attempt fun _ => fillBytes v
      emitIf c log v
      return ret))
    (hlive : Live s token m) (htoken : token ≠ 0) (hv : v.natAbs < 2 ^ 256)
    (hrun : prog.run storageArray m = .ok (a, m')) :
    ∃ ret s', p.call s caller token value o = (.ok ret, s') ∧ Live s' token m' ∧
      s'.getBalance = s.getBalance := by
  have hfill : fillBytes v = .ok (bytesBE 32 v.natAbs) := if_neg (Nat.not_le.2 hv)
  refine call_stored (f := fun _ => do
    let ret ← attempt fun _ => fillBytes v
    emitIf c log v
    return ret) hcreate (fun j => ?_) (fun _ j => ?_) hlive hrun
  · rw [hhandle]
    exact exec_attempt_bind_of_ok (failIf_of_not htoken)
  · rw [exec_attempt_bind_of_ok hfill]
    unfold emitIf
    split_ifs
    · rw [exec_bind_of_ok (exec_emit hv)]
      exact ⟨_, _, rfl, rfl⟩
    · exact ⟨_, _, rfl, rfl⟩

theorem call_transferFrom (value : ℤ) (hlive : Live s token m) (htoken : token ≠ 0) (hv : v.natAbs < 2 ^ 256)
    (hrun : (p.transferFromStorage caller std src dst v).run storageArray m = .ok (u, m')) :
    ∃ ret s', p.call s caller token value (.transferFrom std src dst v) = (.ok ret, s') ∧
      Live s' token m' ∧ s'.getBalance = s.getBalance :=
  call_amount (by simp) rfl hlive htoken hv hrun

theorem exec_takeFee (caller owner : Address) (minter : Option Address) (v : ℤ) (percentFee : UInt8) :
    ∃ left s', (takeFee caller owner minter v percentFee).exec j = (.ok left, ⟨s', j.saved⟩) := by
  unfold takeFee
  cases minter with
  | none => exact ⟨_, _, rfl⟩
  | some minter =>
    dsimp only
    split_ifs
    · exact ⟨_, _, rfl⟩
    · exact ⟨_, _, rfl⟩

theorem run_feeReceiver {st : Storage} {percentFee fee : UInt8}
    (hkind : op.kind = .wrc721 baseURI percentFee) (hst : Fields op st) :
    (feeReceiver st fee).run storageArray m =
      .ok (if 0 < fee then some (minterOf op m) else none, m) := by
  unfold feeReceiver
  split_ifs
  · rw [readMinter_bind hkind hst]
    rfl
  · rfl

/-- A purchase succeeds when the buyer has the coins. -/
theorem call_buy {r : Storage × Processor.Purchase} {minter : Option Address}
    (hlive : Live s token m)
    (hrun : (p.buyStorage caller value tokenId newCost).run storageArray m = .ok (r, m'))
    (hcovered : r.2.paymentValue ≤ s.getBalance caller)
    (hminter : (feeReceiver r.1 r.2.percentFee).run storageArray m' = .ok (minter, m'))
    (hlt : r.2.transferValue.natAbs < 2 ^ 256) :
    ∃ ret s', p.call s caller token value (.buy tokenId newCost) = (.ok ret, s') := by
  let s₁ := s.setNonce caller (s.getNonce caller + 1)
  obtain ⟨str, hview, -, -, hexec⟩ := exec_withStorage (j := ⟨s₁, s₁⟩) (hlive.setNonce _ _) hrun
  have hbal : ¬ s₁.getBalance caller < r.2.paymentValue := by
    rw [getBalance_setNonce]
    exact Int.not_lt.2 hcovered
  obtain ⟨str', s', hpay⟩ : ∃ str' s', (makePayment r.1 str caller r.2.transferFrom
      r.2.paymentValue r.2.percentFee).exec ⟨s₁, s₁⟩ = (.ok str', ⟨s', s₁⟩) := by
    rw [makePayment, exec_attempt_bind_of_ok (j := ⟨s₁, s₁⟩) (failIf_of_not hbal :
      (fun s : StateDB => failIf (s.getBalance caller < r.2.paymentValue)
        TokenError.notEnoughBalance) s₁ = .ok ())]
    split_ifs
    · exact ⟨_, _, rfl⟩
    · obtain ⟨str', hfee, -⟩ := run_stream_of_array str (hview.symm ▸ hminter)
      rw [settlePayment, exec_attempt_bind_of_ok hfee]
      obtain ⟨left, s', htake⟩ := exec_takeFee (j := ⟨s₁, s₁⟩) caller r.2.transferFrom minter
        r.2.paymentValue r.2.percentFee
      rw [exec_bind_of_ok htake]
      exact ⟨_, _, rfl⟩
  have hhandle : (p.handle caller token value (.buy tokenId newCost)).exec ⟨s₁, s₁⟩ =
      (.ok token.bytes, ⟨(str'.flush s').addLog (p.transferEvent token r.2.transferFrom caller
        (bytesBE 32 r.2.transferValue.natAbs)), s₁⟩) := by
    rw [handle, buy, exec_bind_of_ok hexec]
    refine (exec_bind_of_ok hpay).trans ?_
    rw [exec_write_bind, exec_bind_of_ok (exec_emit hlt)]
    rfl
  exact ⟨_, _, call_of_exec s₁ (by simp) hhandle⟩

/-- A creation succeeds on a new account. -/
theorem call_create (value : ℤ) (htoken : token = p.createAddress caller (s.getNonce caller))
    (hnew : s.exist token = false) (hcaller : token ≠ caller)
    (hrun : (p.createStorage caller op).run storageArray emptyStorage = .ok ((), m')) :
    ∃ ret s', p.call s caller 0 value (.create op) = (.ok ret, s') ∧ Live s' token m' ∧
      s'.getBalance = s.getBalance := by
  let s₁ := s.setNonce caller (s.getNonce caller + 1)
  let s₂ := (s₁.createAccount token).setNonce token 1
  have hnonce : s₁.getNonce token = 0 := by
    rw [getNonce_setNonce, if_neg hcaller]
    by_contra hne
    rw [exist_of_nonce_ne_zero hne] at hnew
    cases hnew
  have hexist : s₂.exist token = true := StateDB.exist_modify.trans (by simp)
  have hbal : s₂.getBalance = s.getBalance := by
    refine (getBalance_setNonce _ _ _).trans (Eq.trans ?_
      (getBalance_setNonce s caller (s.getNonce caller + 1)))
    funext a
    unfold getBalance createAccount
    rw [acct_modify]
    split_ifs with ha
    · rw [ha]
    · rfl
  rw [← storageBytes_newAccount s₁ token] at hrun
  obtain ⟨str, hstream, hview, haddr, hdb⟩ := onStorage_of_array hrun
  obtain ⟨hlive, hbal'⟩ := live_flush hexist hview haddr (by rw [hdb])
  refine ⟨token.bytes, (str.flush s₂).addLog (p.creationEvent caller token op.kind), ?_,
    ⟨hlive.exist, hlive.storage⟩, hbal'.trans hbal⟩
  have hexec : (p.handle caller token value (.create op)).exec ⟨s₁, s₁⟩ =
      (.ok token.bytes, ⟨(str.flush s₂).addLog (p.creationEvent caller token op.kind), s₁⟩) := by
    rw [handle, tokenCreate, exec_attempt_bind_of_ok (j := ⟨s₁, s₁⟩)
      (failIf_of_not (not_not.2 hnonce) :
        (fun s : StateDB => failIf (s.getNonce token ≠ 0) TokenError.tokenAddressCollision) s₁ =
          .ok ()),
      exec_write_bind, exec_write_bind, exec_attempt_bind_of_ok hstream]
    rfl
  rw [call, if_neg (not_not.2 rfl), ← htoken, hnew, if_neg (by decide),
    perform, revertOnError, hexec]

end

/-! ## New tokens -/

variable {id : TokenId} {dst : Address} {s₀ : StateDB}

def coin : CreateOp := ⟨[], [], .wrc20 2 1000, (by decide : 0 < 2 ^ 48)⟩

def withCoins : StateDB := StateDB.empty.addBalance 3 100

/-- What the calls of the next run do to the storage of `coin`. -/
def tradeStorage : StorageProg (Storage × Processor.Purchase) := do
  spaced.createStorage 1 coin
  spaced.transferStorage 1 stdWRC20 2 100
  spaced.approveStorage 2 stdWRC20 3 50
  spaced.setPriceStorage 1 none 5
  spaced.buyStorage 3 38 none none

/-- The account 1 creates `coin`, transfers 100 units, and sells units at 5 coins each; the account 2
    approves 50 units, and the account 3 pays 38 coins. -/
theorem exists_tradedRun : ∃ s₁ s₂ s₃ s₄ s₅, TokenRun spaced coin 1001
    [⟨s₄, 3, 38, .buy none none, s₅⟩, ⟨s₃, 1, 0, .setPrice none 5, s₄⟩,
      ⟨s₂, 2, 0, .approve stdWRC20 3 50, s₃⟩, ⟨s₁, 1, 0, .transfer stdWRC20 2 100, s₂⟩,
      ⟨withCoins, 1, 0, .create coin, s₁⟩] s₅ := by
  have hp := noCollision_spaced
  have htoken : (1001 : Address) =
      Processor.spaced.createAddress 1 (withCoins.getNonce 1) := by decide
  have hok : (tradeStorage.run storageArray emptyStorage).isOk = true := by decide +kernel
  obtain ⟨⟨r, m₅⟩, hr⟩ : ∃ x, tradeStorage.run storageArray emptyStorage = .ok x := by
    cases h : tradeStorage.run storageArray emptyStorage with
    | ok x => exact ⟨x, rfl⟩
    | error e => simp [h, Except.isOk, Except.toBool] at hok
  obtain ⟨_, m₁, hcreate, hr⟩ := run_bind_eq_ok.1 hr
  obtain ⟨_, m₂, htransfer, hr⟩ := run_bind_eq_ok.1 hr
  obtain ⟨_, m₃, happrove, hr⟩ := run_bind_eq_ok.1 hr
  obtain ⟨_, m₄, hprice, hbuy⟩ := run_bind_eq_ok.1 hr
  obtain ⟨_, s₁, h₁, hlive, hbal₁⟩ := call_create 0 htoken rfl (by decide) hcreate
  obtain ⟨_, s₂, h₂, hlive, hbal₂⟩ : ∃ ret s₂,
      spaced.call s₁ 1 1001 0 (.transfer stdWRC20 2 100) = (.ok ret, s₂) ∧ _ :=
    call_amount (by simp) rfl hlive (by decide) (by decide) htransfer
  obtain ⟨_, s₃, h₃, hlive, hbal₃⟩ : ∃ ret s₃,
      spaced.call s₂ 2 1001 0 (.approve stdWRC20 3 50) = (.ok ret, s₃) ∧ _ :=
    call_amount (by simp) rfl hlive (by decide) (by decide) happrove
  obtain ⟨_, s₄, h₄, hlive, hbal₄⟩ := call_setPrice 0 hlive hprice
  have hrun₁ : TokenRun spaced coin 1001 _ s₁ := .created (by decide : (0 : ℤ) ≤ 1000) htoken h₁
  have hdec₂ : (TokenOp.transfer stdWRC20 2 100).Decoded := (by decide : (0 : ℤ) ≤ 100)
  have hdec₃ : (TokenOp.approve stdWRC20 3 50).Decoded := (by decide : (0 : ℤ) ≤ 50)
  have hdec₄ : (TokenOp.setPrice none 5).Decoded := ⟨by simp, by decide⟩
  have hrun₄ := ((hrun₁.call (by simp) hdec₂ h₂).call (by simp) hdec₃ h₃).call (by simp) hdec₄ h₄
  have hlaid : Laid coin m₄ := hlive.storage ▸ hrun₄.laid_wrc20 hp rfl
  -- what the purchase costs is known from the specification of the handler
  obtain ⟨-, n, hpurchase, -, hstep⟩ :=
    (buyStorage_wrc20 38 hp hlaid (rfl : coin.kind = _)).2 _ _ hbuy
  have hunits : n ≤ spaced.balanceOf m₄ (creatorOf coin m₄) :=
    hstep.2.covered _ List.mem_cons_self
  have hpaid : r.2.paymentValue ≤ s₄.getBalance 3 := by
    rw [hbal₄, hbal₃, hbal₂, hbal₁, hpurchase]
    have hmod : 0 ≤ (38 : ℤ) % unitPriceOf coin m₄ := by
      rcases eq_or_ne (unitPriceOf coin m₄ : ℤ) 0 with hzero | hne
      · simp [hzero]
      · exact Int.emod_nonneg _ hne
    have hcoins : withCoins.getBalance 3 = 100 := by decide
    rw [hcoins]
    dsimp only
    omega
  have hfee : (feeReceiver r.1 r.2.percentFee).run storageArray m₅ = .ok (none, m₅) := by
    rw [hpurchase]
    rfl
  obtain ⟨_, s₅, h₅⟩ := call_buy hlive hbuy hpaid hfee
    (by rw [hpurchase]; exact hunits.trans_lt (spaced.balanceOf_lt _ _))
  exact ⟨s₁, s₂, s₃, s₄, s₅, hrun₄.call (by simp) ⟨by simp, by simp⟩ h₅⟩

/-- A WRC-721 token without a name. -/
def collection (percentFee : UInt8) : CreateOp :=
  ⟨[], [], .wrc721 [] percentFee, (by decide : 0 < 2 ^ 48)⟩

def idFive : TokenId := ⟨5, by norm_num⟩

/-- The run of `collection` that the account 1 creates, and whose first id it mints to `dst`. -/
theorem exists_mintedRun (percentFee : UInt8) (hnew : s₀.exist 1001 = false)
    (hnonce : s₀.getNonce 1 = 0) :
    ∃ s₁ s₂ m, TokenRun spaced (collection percentFee) 1001
        [⟨s₁, 1, 0, .mint stdWRC721 dst id.toNat [], s₂⟩,
          ⟨s₀, 1, 0, .create (collection percentFee), s₁⟩] s₂ ∧
      Live s₂ 1001 m ∧ Laid (collection percentFee) m ∧
      minterOf (collection percentFee) m = 1 ∧
      percentFeeOf (collection percentFee) m = percentFee ∧
      Processor.spaced.nfts m = ⟨update (fun _ => 0) id dst,
        update (fun _ => 0) dst 1, fun _ => 0, fun _ => 0⟩ ∧
      s₂.getBalance = s₀.getBalance := by
  have hp := noCollision_spaced
  have htoken : (1001 : Address) = Processor.spaced.createAddress 1 (s₀.getNonce 1) := by
    rw [hnonce]
    decide
  obtain ⟨m₁, hlaid, hnfts, hminter, hfee, hrun⟩ := run_createStorage_wrc721 hp 1
    (rfl : (collection percentFee).kind = _) emptyStorage
  rw [nfts_emptyStorage] at hnfts
  obtain ⟨ret, s₁, hcall, hlive, hbal⟩ := call_create 0 htoken hnew (by decide) hrun
  have hbalance : Processor.spaced.balanceOf m₁ = fun _ => 0 := congrArg Nfts.balance hnfts
  obtain ⟨hends, hok⟩ : Meets _ _
      ((Processor.spaced.mintStorage 1 stdWRC721 dst id.toNat []).run storageArray m₁) :=
    mintStorage_wrc721 0 hp hlaid rfl
  obtain ⟨_, m₂, hmint⟩ := hok ⟨rfl, hminter, rfl, by rw [hbalance]; norm_num, id, rfl, by rw [hnfts]⟩
  obtain ⟨ret', s₂, hcall', hlive', hbal'⟩ := call_mint 0 (v := id.toNat) hlive id.toNat_lt hmint
  obtain ⟨-, -, hsame, hstep⟩ := hends.2 _ _ hmint
  refine ⟨s₁, s₂, m₂, .call (.created trivial htoken hcall) nofun (Int.natCast_nonneg _) hcall',
    hlive', hsame.laid hlaid, (hsame.minterOf rfl).trans hminter,
    (hsame.percentFeeOf rfl).trans hfee, ?_, hbal'.trans hbal⟩
  rw [(hstep.inv id).1 _ _ _ rfl, hnfts]

theorem exists_pricedRun (percentFee : UInt8) {n : ℕ} (hdst : dst ≠ 0) (hn : n < 2 ^ 256)
    (hnew : s₀.exist 1001 = false) (hnonce : s₀.getNonce 1 = 0) :
    ∃ s₁ s₂ s₃ m, TokenRun spaced (collection percentFee) 1001
        [⟨s₂, dst, 0, .setPrice (some (id.toNat : ℤ)) n, s₃⟩,
          ⟨s₁, 1, 0, .mint stdWRC721 dst id.toNat [], s₂⟩,
          ⟨s₀, 1, 0, .create (collection percentFee), s₁⟩] s₃ ∧
      Live s₃ 1001 m ∧ Laid (collection percentFee) m ∧
      minterOf (collection percentFee) m = 1 ∧
      percentFeeOf (collection percentFee) m = percentFee ∧
      Processor.spaced.nfts m = ⟨update (fun _ => 0) id dst,
        update (fun _ => 0) dst 1, fun _ => 0, update (fun _ => 0) id n⟩ ∧
      s₃.getBalance = s₀.getBalance := by
  have hp := noCollision_spaced
  obtain ⟨s₁, s₂, m, hrun, hlive, hlaid, hminter, hfee, hnfts, hbal⟩ :=
    @exists_mintedRun id dst s₀ percentFee hnew hnonce
  have howner : (Processor.spaced.nfts m).owner id = dst := by simp [hnfts]
  obtain ⟨hends, hok⟩ : Meets _ _
      ((Processor.spaced.setPriceStorage dst (some id.toNat) n).run storageArray m) :=
    setPriceStorage_wrc721 0 hp hlaid rfl fun t ht => Option.some.inj ht ▸ Int.natCast_nonneg id.toNat
  obtain ⟨_, m', hset⟩ := hok ⟨hdst, hn, id, rfl, howner⟩
  obtain ⟨ret, s₃, hcall, hlive', hbal'⟩ := call_setPrice 0 hlive hset
  obtain ⟨hsame, hstep⟩ := hends.2 _ _ hset
  refine ⟨s₁, s₂, s₃, m', .call hrun nofun
      ⟨fun t ht => Option.some.inj ht ▸ Int.natCast_nonneg _, Int.natCast_nonneg _⟩ hcall,
    hlive', hsame.laid hlaid, (hsame.minterOf rfl).trans hminter,
    (hsame.percentFeeOf rfl).trans hfee, ?_, hbal'.trans hbal⟩
  rw [(hstep.inv id).2.2.2.1 n rfl, hnfts]

theorem exists_soldRun (percentFee : UInt8) (hnew : s₀.exist 1001 = false)
    (hnonce : s₀.getNonce 1 = 0) (hcoins : 100 ≤ s₀.getBalance 3) :
    ∃ s₁ s₂ s₃ s₄ m, ∃ ret, TokenRun spaced (collection percentFee) 1001
        [⟨s₂, 2, 0, .setPrice (some 5) 100, s₃⟩, ⟨s₁, 1, 0, .mint stdWRC721 2 5 [], s₂⟩,
          ⟨s₀, 1, 0, .create (collection percentFee), s₁⟩] s₃ ∧
      Processor.spaced.call s₃ 3 1001 100 (.buy (some 5) (some 0)) = (.ok ret, s₄) ∧
      storageBytes s₃ 1001 = m ∧ s₃.getBalance = s₀.getBalance ∧
      minterOf (collection percentFee) m = 1 ∧
      Processor.spaced.nfts m = ⟨update (fun _ => 0) idFive 2,
        update (fun _ => 0) 2 1, fun _ => 0, update (fun _ => 0) idFive 100⟩ := by
  have hp := noCollision_spaced
  obtain ⟨s₁, s₂, s₃, m, hrun, hlive, hlaid, hminter, hfee, hnfts, hbal⟩ :=
    @exists_pricedRun idFive 2 s₀ percentFee 100 (by decide) (by norm_num) hnew hnonce
  have howner : (Processor.spaced.nfts m).owner idFive = 2 := by simp [hnfts]
  have hprice : (Processor.spaced.nfts m).price idFive = 100 := by simp [hnfts]
  have hseller : (Processor.spaced.nfts m).balance 2 = 1 := by simp [hnfts]
  have hbuyer : (Processor.spaced.nfts m).balance 3 = 0 := by
    rw [hnfts]
    exact update_of_ne (by decide : (3 : Address) ≠ 2) 1 fun _ => 0
  obtain ⟨hends, hok⟩ : Meets _ _
      ((Processor.spaced.buyStorage 3 100 (some idFive.toNat) (some 0)).run storageArray m) :=
    buyStorage_wrc721 100 hp hlaid rfl
      (fun t ht => Option.some.inj ht ▸ Int.natCast_nonneg idFive.toNat)
      (fun c hc => Option.some.inj hc ▸ Int.natCast_nonneg 0)
  obtain ⟨⟨st, purchase⟩, m', hbuy⟩ := hok ⟨lt_of_eq_of_lt (congrArg (· + 1) hbuyer) (by norm_num),
    ⟨0, rfl, by norm_num⟩, idFive, rfl, by rw [howner]; decide, by rw [howner]; exact hseller.ge,
    by rw [hprice]; decide, by rw [hprice]; decide⟩
  obtain ⟨hst, id, hid, rfl, -⟩ := hends.2 _ _ hbuy
  obtain rfl := TokenId.toNat_inj.1 (Int.ofNat_inj.1 (Option.some.inj hid))
  obtain ⟨ret, s₄, hcall⟩ := call_buy hlive hbuy (by rw [hbal, hprice]; exact hcoins)
    (run_feeReceiver rfl hst) (by decide : (1 : ℤ).natAbs < 2 ^ 256)
  exact ⟨s₁, s₂, s₃, s₄, m, ret, hrun, hcall, hlive.storage, hbal, hminter, hnfts⟩

end Gwat.Token
