/-
  The storage of a token as a stream of bytes (`token/storage/stream.go`).
-/
import Gwat.Lib.Bitlist
import Gwat.Lib.ByteProg
import Gwat.Lib.GoMap
import Gwat.State.StateDB

namespace Gwat.Token

open GoLib List Function

/-- The errors of token operations (`token/processor.go`, `token/operation/errors.go`) and
    of the token storage (`token/storage`); `panic` is a run-time panic. -/
inductive TokenError where
  | addressAlreadyExists
  | tokenNotExists
  | tokenOpStandardNotValid
  | notEnoughBalance
  | insufficientAllowance
  | alreadyMinted
  | notMinted
  | incorrectOwner
  | incorrectTo
  | incorrectTransferFrom
  | wrongCaller
  | wrongMinter
  | notNilTo
  | tokenIsNotForSale
  | tooSmallTxValue
  | tokenIdIsNotSet
  | newValueIsNotSet
  | uint256Overflow
  | tokenAddressCollision
  | metadataExceedsMaxSize
  | noAddress
  | standardNotValid
  | invalidOff
  | badMapId
  | keySizeIsZero
  | badKeySize
  | badValueSize
  | badType
  | arrayExpected
  | keyValuePairExpected
  | fieldNotFound
  | valueTooLarge
  | unknownType
  | wrongType
  | wrongKeyType
  | isNotScalarType
  | nameTooBig
  | sliceNotInMap
  | tooManyFields
  | panic
  deriving DecidableEq, Repr

/-! ## The stream -/

/-- `slot`: the slot of an offset; `FillBytes` panics when it needs more than 32 bytes. -/
def slot (shift : ℤ) : Except TokenError Hash :=
  if shift < 0 then .error .invalidOff
  else if 2 ^ 256 ≤ shift / 32 then .error .panic
  else .ok (hashOfNat (shift / 32).toNat)

/-- `position`: where in its slot an offset lies. -/
def position (shift : ℤ) : Except TokenError ℕ :=
  if shift < 0 then .error .invalidOff else .ok (shift % 32).toNat

/-- `StorageStream`; the state is the one at the time of the first read, as nothing else
    writes to the storage of the token while a stream is in use. -/
structure StorageStream where
  stateDb : StateDB
  tokenAddress : Address
  bufferedSlots : GoMap Hash Hash

def newStorageStream (tokenAddr : Address) (stateDb : StateDB) : StorageStream :=
  ⟨stateDb, tokenAddr, ∅⟩

namespace StorageStream

/-- A slot as the stream sees it: buffered, or as in the state. -/
def slotValue (st : StorageStream) (key : Hash) : Hash :=
  (st.bufferedSlots.lookup key).getD (st.stateDb.getState st.tokenAddress key)

/-- The stream with another value in a slot. -/
def setSlot (st : StorageStream) (key value : Hash) : StorageStream :=
  { st with bufferedSlots := st.bufferedSlots.insert key value }

/-- `getSlot`: the key of the slot, which is in the buffer afterwards. -/
def getSlot (st : StorageStream) (off : ℤ) : Except TokenError (Hash × StorageStream) := do
  let key ← slot off
  return (key, if key ∈ st.bufferedSlots then st else st.setSlot key (st.slotValue key))

/-- What a step does to the rest of the slot and to the bytes of the caller. -/
abbrev SlotAction := Bytes → Bytes → Bytes × Bytes

/-- The loop of `do`: `b` is what is left of the caller's bytes, `slotPos` the position in
    the slot.  Each round handles at least one byte. -/
def doLoop (action : SlotAction) : ℕ → Bytes → ℤ → ℕ → StorageStream →
    Except TokenError (Bytes × StorageStream)
  | 0, b, _, _, st => .ok (b, st)
  | fuel + 1, b, off, slotPos, st =>
    if b = [] then .ok ([], st)
    else do
      let (key, st) ← st.getSlot off
      let buf := (st.slotValue key).bytes
      let (tail, b) := action (buf.drop slotPos) b
      let wb := min (buf.length - slotPos) b.length
      let st := st.setSlot key (hashOfBytes (buf.take slotPos ++ tail))
      let (rest, st) ← doLoop action fuel (b.drop wb) (off + wb) 0 st
      return (b.take wb ++ rest, st)

/-- `do` -/
def doAt (action : SlotAction) (b : Bytes) (off : ℤ) (st : StorageStream) :
    Except TokenError (Bytes × StorageStream) :=
  if off < 0 then .error .invalidOff
  else do
    let slotPos ← position off
    doLoop action b.length b off slotPos st

/-- The action of `ReadAt`. -/
def copyOut : SlotAction := fun streamBuf b => (streamBuf, copyOver b streamBuf)

/-- The action of `WriteAt`. -/
def copyIn : SlotAction := fun streamBuf b => (copyOver streamBuf b, b)

/-- `ReadAt`: the bytes that a buffer of length `n` holds afterwards. -/
def readAt (n : ℕ) (off : ℤ) (st : StorageStream) : Except TokenError (Bytes × StorageStream) :=
  doAt copyOut (List.replicate n 0) off st

def writeAt (b : Bytes) (off : ℤ) (st : StorageStream) : Except TokenError StorageStream := do
  let (_, st) ← doAt copyIn b off st
  return st

def flush (st : StorageStream) (s : StateDB) : StateDB :=
  st.bufferedSlots.entries.foldl (fun s e => s.setState st.tokenAddress e.1 e.2) s

end StorageStream

variable {st st' : StorageStream} {off i fuel slotPos n : ℕ} {slots slots' : Hash → Hash}

/-- The stream as a device for storage code. -/
def stream : Device TokenError StorageStream := ⟨StorageStream.readAt, StorageStream.writeAt⟩

/-! ## The stream as an array of bytes -/

/-- The number of bytes in the storage of an account. -/
def storageSize : ℕ := 32 * 2 ^ 256

/-- The storage of an account as a device. -/
def storageArray : Device TokenError Mem := Mem.device storageSize .invalidOff .panic

/-- The bytes of the slots, one after the other. -/
def slotBytes (slots : Hash → Hash) : Mem := fun i =>
  if i < storageSize then ((slots (hashOfNat (i / 32))).bytes[i % 32]?).getD 0 else 0

def storageBytes (s : StateDB) (a : Address) : Mem := slotBytes (s.getState a)

/-- What the stream shows. -/
def StorageStream.view (st : StorageStream) : Mem := slotBytes st.slotValue

@[simp] theorem view_newStorageStream (a : Address) (s : StateDB) :
    (newStorageStream a s).view = storageBytes s a := rfl

theorem slotValue_setSlot (st : StorageStream) (key value : Hash) :
    (st.setSlot key value).slotValue = update st.slotValue key value := by
  funext k
  rcases eq_or_ne k key with rfl | h <;> simp [StorageStream.slotValue, StorageStream.setSlot, *]

theorem getSlot_eq (h : off < storageSize) :
    ∃ st', st.getSlot off = .ok (hashOfNat (off / 32), st') ∧ st'.slotValue = st.slotValue := by
  have hkey : slot off = .ok (hashOfNat (off / 32)) := by
    have hlt : ((off : ℤ) / 32) < 2 ^ 256 := by unfold storageSize at h; omega
    rw [slot, if_neg (by omega), if_neg (by omega)]
    rfl
  refine ⟨_, by rw [StorageStream.getSlot, hkey, ok_bind]; rfl, ?_⟩
  split_ifs
  · rfl
  · rw [slotValue_setSlot, update_eq_self]

theorem getSlot_beyond (h : storageSize ≤ off) : st.getSlot off = .error .panic := by
  have hge : 2 ^ 256 ≤ (off : ℤ) / 32 := by unfold storageSize at h; omega
  rw [StorageStream.getSlot, slot, if_neg (by omega), if_pos hge]
  rfl

theorem slotBytes_eq (h : i < storageSize) :
    slotBytes slots i = ((slots (hashOfNat (i / 32))).bytes[i % 32]?).getD 0 := if_pos h

/-- Writing to the rest of a slot, from the position of `off` on. -/
theorem slotBytes_update (h : off < storageSize) (b : Bytes) :
    let key : Hash := hashOfNat (off / 32)
    let buf := (slots key).bytes
    slotBytes (update slots key
        (hashOfBytes (buf.take (off % 32) ++ copyOver (buf.drop (off % 32)) b))) =
      (slotBytes slots).write off (b.take (32 - off % 32)) := by
  intro key buf
  have hbuf : buf.length = 32 := Hash.length_bytes _
  have hlen : (buf.take (off % 32) ++ copyOver (buf.drop (off % 32)) b).length = 32 := by
    rw [length_append, length_copyOver, length_take, length_drop, hbuf]
    omega
  funext i
  rcases Nat.lt_or_ge i storageSize with hi | hi
  · by_cases hk : i / 32 = off / 32
    · -- the slot that is written
      rw [slotBytes_eq hi, hk, update_self, bytes_hashOfBytes hlen]
      rcases Nat.lt_or_ge i off with hlt | hge
      · rw [Mem.write_of_lt hlt, slotBytes_eq hi, hk,
          getElem?_append_left (by rw [length_take, hbuf]; omega),
          getElem?_take_of_lt (by omega)]
      · have hsub : i % 32 - (buf.take (off % 32)).length = i - off := by
          rw [length_take, hbuf]
          omega
        have hadd : off % 32 + (i - off) = i % 32 := by omega
        rw [getElem?_append_right (by rw [length_take, hbuf]; omega), hsub,
          getElem?_copyOver _ _ _ (by rw [length_drop, hbuf]; omega), getElem?_drop, hadd,
          Mem.write, if_pos hge, getElem?_take_of_lt (by omega), slotBytes_eq hi, hk]
        split_ifs with hlt
        · rw [getElem?_eq_getElem hlt, Option.getD_some, Option.getD_some]
        · rw [getElem?_eq_none (Nat.not_lt.1 hlt), Option.getD_none]
    · -- another slot
      have hkey : hashOfNat (i / 32) ≠ key := by
        intro heq
        unfold storageSize at h hi
        exact hk (hashOfNat_inj (by omega) (by omega) heq)
      rw [slotBytes_eq hi, update_of_ne hkey, ← slotBytes_eq hi]
      rcases Nat.lt_or_ge i off with hlt | hge
      · rw [Mem.write_of_lt hlt]
      · rw [Mem.write_of_ge (by rw [length_take]; omega)]
  · rw [Mem.write_of_ge (by rw [length_take]; unfold storageSize at *; omega)]
    simp [slotBytes, Nat.not_lt.2 hi]

open StorageStream

variable {b tail b' : Bytes} {off : ℕ} {st : StorageStream} {action : SlotAction}

theorem doLoop_succ (action : SlotAction) (fuel : ℕ) (st : StorageStream) (hb : b ≠ [])
    (h : off < storageSize)
    (hact : action ((st.slotValue (hashOfNat (off / 32))).bytes.drop (off % 32)) b = (tail, b')) :
    ∃ st' : StorageStream,
      st'.slotValue = update st.slotValue (hashOfNat (off / 32))
        (hashOfBytes ((st.slotValue (hashOfNat (off / 32))).bytes.take (off % 32) ++ tail)) ∧
      doLoop action (fuel + 1) b off (off % 32) st =
        (doLoop action fuel (b'.drop (min (32 - off % 32) b'.length))
          ((off + min (32 - off % 32) b'.length : ℕ) : ℤ) 0 st').map
            fun next => (b'.take (min (32 - off % 32) b'.length) ++ next.1, next.2) := by
  obtain ⟨st₀, hst₀, hval⟩ := @getSlot_eq st off h
  refine ⟨st₀.setSlot _ _, by rw [slotValue_setSlot, hval], ?_⟩
  rw [doLoop, if_neg hb, hst₀, ok_bind]
  simp only [hval, hact, Hash.length_bytes, Nat.cast_add]
  cases doLoop action fuel (b'.drop (min (32 - off % 32) b'.length))
      (off + (min (32 - off % 32) b'.length : ℕ)) 0 (st₀.setSlot _ _) <;> rfl

theorem doLoop_beyond (action : SlotAction) (hb : b ≠ []) (h : storageSize ≤ off) :
    doLoop action (fuel + 1) b off slotPos st = .error .panic := by
  rw [doLoop, if_neg hb, getSlot_beyond h]
  rfl

theorem doLoop_nil (action : SlotAction) (fuel slotPos : ℕ) (off : ℤ) (st : StorageStream) :
    doLoop action fuel [] off slotPos st = .ok ([], st) := by
  cases fuel <;> simp [doLoop]

/-- What an action does to an array of bytes: the bytes `out` that the caller gets and the array
    `upd` that is left, in one slot and over the pieces of a longer buffer. -/
structure ActsAs (action : SlotAction) (out : Mem → ℕ → Bytes → Bytes)
    (upd : Mem → ℕ → Bytes → Mem) : Prop where
  nil : ∀ m off, out m off [] = [] ∧ upd m off [] = m
  split : ∀ m off b k, k ≤ b.length →
    out m off b = out m off (b.take k) ++ out (upd m off (b.take k)) (off + k) (b.drop k) ∧
    upd m off b = upd (upd m off (b.take k)) (off + k) (b.drop k)
  step : ∀ fuel (st : StorageStream) (b : Bytes) (off : ℕ), b ≠ [] → off < storageSize →
    ∃ st' : StorageStream, st'.view = upd st.view off (b.take (min (32 - off % 32) b.length)) ∧
      doLoop action (fuel + 1) b off (off % 32) st =
        (doLoop action fuel (b.drop (min (32 - off % 32) b.length))
          ((off + min (32 - off % 32) b.length : ℕ) : ℤ) 0 st').map
            fun r => (out st.view off (b.take (min (32 - off % 32) b.length)) ++ r.1, r.2)

theorem ActsAs.doLoop_eq {out : Mem → ℕ → Bytes → Bytes} {upd : Mem → ℕ → Bytes → Mem}
    (h : ActsAs action out upd) :
    ∀ (fuel : ℕ) (b : Bytes) (off : ℕ) (st : StorageStream), b.length ≤ fuel →
    (doLoop action fuel b off (off % 32) st).map (fun r => (r.1, r.2.view)) =
      if b ≠ [] ∧ storageSize < off + b.length then .error .panic
      else .ok (out st.view off b, upd st.view off b)
  | _, [], off, st, _ => by simp [doLoop_nil, Except.map, h.nil]
  | 0, x :: b, _, _, hfuel => absurd hfuel (by simp)
  | fuel + 1, x :: b, off, st, hfuel => by
    have hne : x :: b ≠ [] := cons_ne_nil _ _
    generalize x :: b = b at hfuel hne
    have hpos := length_pos_iff.2 hne
    rcases Nat.lt_or_ge off storageSize with hoff | hoff
    · obtain ⟨st', hview, hloop⟩ := h.step fuel st b off hne hoff
      generalize hk : min (32 - off % 32) b.length = k at hview hloop
      have ih := h.doLoop_eq fuel (b.drop k) (off + k) st' (by rw [length_drop]; omega)
      have hsplit := h.split st.view off b k (by omega)
      -- the next slot is entered at its start, unless the bytes end in this one
      have hslot : doLoop action fuel (b.drop k) ((off + k : ℕ) : ℤ) 0 st' =
          doLoop action fuel (b.drop k) ((off + k : ℕ) : ℤ) ((off + k) % 32) st' := by
        rcases Nat.le_total b.length (32 - off % 32) with hle | hle
        · rw [drop_of_length_le (by omega), doLoop_nil, doLoop_nil]
        · rw [show (off + k) % 32 = 0 by omega]
      have hout : (b.drop k ≠ [] ∧ storageSize < off + k + (b.drop k).length) ↔
          (b ≠ [] ∧ storageSize < off + b.length) := by
        simp only [ne_eq, drop_eq_nil_iff, length_drop, hne, not_false_eq_true, true_and]
        unfold storageSize at hoff ⊢
        omega
      rw [if_congr hout rfl rfl] at ih
      rw [hloop, hslot, hsplit.1, hsplit.2]
      generalize doLoop action fuel (b.drop k) _ ((off + k) % 32) st' = next at ih ⊢
      split_ifs at ih ⊢ <;> cases next <;> simp_all [Except.map]
    · rw [doLoop_beyond action hne hoff, if_pos ⟨hne, by omega⟩]
      rfl

theorem actsAs_copyIn : ActsAs copyIn (fun _ _ b => b) Mem.write where
  nil m off := ⟨rfl, by simp⟩
  split m off b k hk := by
    have hlen : (b.take k).length = k := length_take_of_le hk
    refine ⟨(take_append_drop k b).symm, ?_⟩
    conv_lhs => rw [← take_append_drop k b]
    rw [Mem.write_append, hlen]
  step fuel st b off hb h := by
    obtain ⟨st', hval, hloop⟩ := doLoop_succ copyIn fuel st hb h rfl
    refine ⟨st', ?_, hloop⟩
    rw [StorageStream.view, hval, slotBytes_update h b, ← take_take, take_length]
    rfl

theorem take_slot (h : off < storageSize) (n : ℕ) :
    ((slots (hashOfNat (off / 32))).bytes.drop (off % 32)).take n =
      (slotBytes slots).read off (min (32 - off % 32) n) := by
  apply ext_getElem
  · simp [Nat.min_comm]
  · intro i hi _
    have hi' : i < 32 - off % 32 := by
      simp only [length_take, length_drop, Hash.length_bytes] at hi
      omega
    have hlt : off + i < storageSize := by unfold storageSize at *; omega
    have hdiv : (off + i) / 32 = off / 32 := by omega
    have hmod : (off + i) % 32 = off % 32 + i := by omega
    rw [getElem_take, getElem_drop, Mem.getElem_read, slotBytes_eq hlt, hdiv, hmod,
      getElem?_eq_getElem (by rw [Hash.length_bytes]; omega), Option.getD_some]

theorem actsAs_copyOut : ActsAs copyOut (fun m off b => m.read off b.length) (fun m _ _ => m) where
  nil m off := ⟨by simp [Mem.read], rfl⟩
  split m off b k hk := by
    rw [length_take_of_le hk, length_drop, ← Mem.read_add, Nat.add_sub_cancel' hk]
    exact ⟨rfl, rfl⟩
  step fuel st b off hb h := by
    obtain ⟨st', hval, hloop⟩ := doLoop_succ copyOut fuel st hb h rfl
    rw [take_append_drop, hashOfBytes_bytes, update_eq_self] at hval
    refine ⟨st', by rw [StorageStream.view, hval]; rfl, ?_⟩
    have hlen : ((st.slotValue (hashOfNat (off / 32))).bytes.drop (off % 32)).length =
        32 - off % 32 := by rw [length_drop, Hash.length_bytes]
    rw [hloop, length_copyOver, ← hlen, drop_copyOver, take_copyOver, hlen, take_slot h,
      length_take_of_le (Nat.min_le_right _ _)]
    rfl

/-- The stream is an array of bytes. -/
theorem stream_refines : stream.Refines storageArray StorageStream.view where
  readAt n off st := by
    change (readAt n off st).map _ = _
    rw [readAt, doAt, storageArray, Mem.device]
    by_cases h : off < 0
    · simp only [if_pos h]
      rfl
    · lift off to ℕ using Int.not_lt.1 h
      have hloop := actsAs_copyOut.doLoop_eq n (List.replicate n 0) off st (by simp)
      simp only [position, if_neg h, ok_bind, length_replicate, Int.toNat_natCast] at hloop ⊢
      rw [show ((off : ℤ) % 32).toNat = off % 32 by omega, hloop]
      simp
  writeAt b off st := by
    change (writeAt b off st).map _ = _
    rw [writeAt, doAt, storageArray, Mem.device]
    by_cases h : off < 0
    · simp only [if_pos h]
      rfl
    · lift off to ℕ using Int.not_lt.1 h
      have hloop := actsAs_copyIn.doLoop_eq b.length b off st le_rfl
      simp only [position, if_neg h, ok_bind, Int.toNat_natCast] at hloop ⊢
      rw [show ((off : ℤ) % 32).toNat = off % 32 by omega]
      cases hres : doLoop copyIn b.length b off (off % 32) st <;> rw [hres] at hloop <;>
        split_ifs at hloop ⊢ <;> simp_all [Except.map]

/-! ## Storing the buffer -/

theorem doLoop_keeps : ∀ {fuel : ℕ} {b : Bytes} {off : ℤ} {slotPos : ℕ}
    {st : StorageStream} {r : Bytes × StorageStream},
    doLoop action fuel b off slotPos st = .ok r →
    (r.2.tokenAddress, r.2.stateDb) = (st.tokenAddress, st.stateDb)
  | 0, b, off, slotPos, st, r, h => by cases h; rfl
  | fuel + 1, b, off, slotPos, st, r, h => by
    rw [doLoop] at h
    split_ifs at h
    · cases h
      rfl
    · obtain ⟨⟨key, st₁⟩, hslot, h⟩ := bind_eq_ok.1 h
      obtain ⟨⟨rest, st₂⟩, hloop, h⟩ := bind_eq_ok.1 h
      cases h
      refine (doLoop_keeps hloop).trans ?_
      obtain ⟨key', -, hslot⟩ := bind_eq_ok.1 hslot
      cases hslot
      split_ifs <;> rfl

theorem run_stream_keeps {α : Type} {prog : ByteProg TokenError α} {a : α}
    (h : prog.run stream st = .ok (a, st')) :
    st'.tokenAddress = st.tokenAddress ∧ st'.stateDb = st.stateDb := by
  have hdo : ∀ {action : SlotAction} {b : Bytes} {off : ℤ} {st : StorageStream}
      {r : Bytes × StorageStream}, doAt action b off st = .ok r →
      (r.2.tokenAddress, r.2.stateDb) = (st.tokenAddress, st.stateDb) := by
    intro action b off st r h
    unfold doAt at h
    split_ifs at h
    obtain ⟨pos, -, h⟩ := bind_eq_ok.1 h
    exact doLoop_keeps h
  refine Prod.mk.inj (ByteProg.run_keeps
    (fun st : StorageStream => (st.tokenAddress, st.stateDb)) hdo (fun hw => ?_) h)
  obtain ⟨r, hr, hret⟩ := bind_eq_ok.1 hw
  cases hret
  exact hdo hr

/-- A flush changes the slots of one account only. -/
theorem flush_keeps {κ : Type} {f : StateDB → κ}
    (hf : ∀ s a k v, f (s.setState a k v) = f s) (st : StorageStream) (s : StateDB) :
    f (st.flush s) = f s := by
  unfold StorageStream.flush
  induction st.bufferedSlots.entries generalizing s with
  | nil => rfl
  | cons e l ih => rw [foldl_cons, ih, hf]

theorem getState_foldl_setState (a : Address) : ∀ (l : List (Sigma fun _ : Hash => Hash))
    (s : StateDB), l.NodupKeys → ∀ b k,
    (l.foldl (fun s e => s.setState a e.1 e.2) s).getState b k =
      if b = a then (l.dlookup k).getD (s.getState b k) else s.getState b k
  | [], s, _, b, k => by simp
  | ⟨key, v⟩ :: l, s, h, b, k => by
    obtain ⟨hnot, hl⟩ := nodupKeys_cons.1 h
    rw [foldl_cons, getState_foldl_setState a l _ hl b k, StateDB.getState_setState]
    by_cases hb : b = a
    · by_cases hk : k = key
      · subst hk
        simp [dlookup_eq_none.2 hnot]
      · simp [hk, dlookup_cons_ne l ⟨key, v⟩ hk]
    · simp [hb]

theorem getState_flush (st : StorageStream) (s : StateDB) (b : Address) (k : Hash) :
    (st.flush s).getState b k = if b = st.tokenAddress then
      (st.bufferedSlots.lookup k).getD (s.getState b k) else s.getState b k :=
  getState_foldl_setState st.tokenAddress _ s st.bufferedSlots.nodupKeys b k

/-- A flush to the state the stream was opened on stores what the stream shows. -/
theorem storageBytes_flush {s : StateDB}
    (h : s.getState st.tokenAddress = st.stateDb.getState st.tokenAddress) :
    storageBytes (st.flush s) st.tokenAddress = st.view := by
  have hslots : (st.flush s).getState st.tokenAddress = st.slotValue := by
    funext k
    rw [getState_flush, if_pos rfl, h]
    rfl
  rw [storageBytes, hslots]
  rfl

/-- A program that succeeds on the bytes of a stream succeeds on the stream. -/
theorem run_stream_of_array {α : Type} {prog : ByteProg TokenError α} {a : α} {m' : Mem}
    (str : StorageStream) (hrun : prog.run storageArray str.view = .ok (a, m')) :
    ∃ str', prog.run stream str = .ok (a, str') ∧ str'.view = m' ∧
      str'.tokenAddress = str.tokenAddress ∧ str'.stateDb = str.stateDb := by
  have hview := ByteProg.run_refines stream_refines prog str
  rw [hrun] at hview
  rcases hstream : prog.run stream str with e | ⟨a', str'⟩
  · rw [hstream] at hview
    cases hview
  · rw [hstream] at hview
    obtain ⟨rfl, hstr⟩ := Prod.mk.inj (Except.ok.inj hview)
    exact ⟨str', rfl, hstr, run_stream_keeps hstream⟩

/-! ## Histories of calls -/

/-- The calls of a stream. -/
inductive StreamCall where
  | readAt (n off : ℕ)
  | writeAt (b : Bytes) (off : ℕ)

namespace StreamCall

/-- The bytes of the call lie in the storage. -/
def Within : StreamCall → Prop
  | readAt n off => off + n ≤ storageSize
  | writeAt b off => off + b.length ≤ storageSize

/-- The call on a stream. -/
def exec : StreamCall → StorageStream → Except TokenError StorageStream
  | readAt n off, st => do
    let (_, st) ← st.readAt n off
    return st
  | writeAt b off, st => st.writeAt b off

/-- What the call writes to a byte. -/
def written : StreamCall → ℕ → Option UInt8
  | readAt _ _, _ => none
  | writeAt b off, i => if off ≤ i then b[i - off]? else none

end StreamCall

/-- The last value that the calls write to a byte. -/
def lastWritten (calls : List StreamCall) (i : ℕ) : Option UInt8 :=
  calls.reverse.findSome? (·.written i)

theorem readAt_within (h : off + n ≤ storageSize) (st : StorageStream) :
    ∃ st', st.readAt n off = .ok (st.view.read off n, st') ∧ st'.view = st.view ∧
      st'.tokenAddress = st.tokenAddress ∧ st'.stateDb = st.stateDb := by
  obtain ⟨st', hrun, hst'⟩ := run_stream_of_array st (Mem.run_read_of_le h)
  exact ⟨st', (ByteProg.run_read n off).symm.trans hrun, hst'⟩

/-- What a call within the storage does. -/
theorem StreamCall.exec_eq {c : StreamCall} (h : c.Within) (st : StorageStream) :
    ∃ st', c.exec st = .ok st' ∧ (st'.tokenAddress = st.tokenAddress ∧ st'.stateDb = st.stateDb) ∧
      ∀ i, st'.view i = (c.written i).getD (st.view i) := by
  cases c with
  | readAt n off =>
    obtain ⟨st', hrun, hview, hkeep⟩ := readAt_within h st
    exact ⟨st', by simp [exec, hrun], hkeep, fun i => by simp [written, hview]⟩
  | writeAt b off =>
    obtain ⟨st', hrun, hview, hkeep⟩ := run_stream_of_array st (Mem.run_write_of_le h)
    change (st.writeAt b off).map _ = _ at hrun
    cases hw : st.writeAt b off with
    | error e =>
      rw [hw] at hrun
      cases hrun
    | ok st₁ =>
      rw [hw] at hrun
      obtain rfl : st₁ = st' := (Prod.mk.inj (Except.ok.inj hrun)).2
      refine ⟨st₁, hw, hkeep, fun i => ?_⟩
      rw [hview, Mem.write, written]
      split_ifs <;> rfl

/-- What the calls of a history leave. -/
theorem foldlM_exec (s : StateDB) (a : Address) (calls : List StreamCall)
    (h : ∀ c ∈ calls, c.Within) :
    ∃ st, calls.foldlM (fun st c => c.exec st) (newStorageStream a s) = .ok st ∧
      (st.tokenAddress = a ∧ st.stateDb = s) ∧
      ∀ i, st.view i = (lastWritten calls i).getD (storageBytes s a i) := by
  induction calls using List.reverseRecOn with
  | nil => exact ⟨_, rfl, ⟨rfl, rfl⟩, fun i => rfl⟩
  | append_singleton calls c ih =>
    rw [forall_mem_append, forall_mem_singleton] at h
    obtain ⟨st, hst, hkeep, hview⟩ := ih h.1
    obtain ⟨st', hst', hkeep', hview'⟩ := StreamCall.exec_eq h.2 st
    refine ⟨st', by simp [hst, hst'], ⟨hkeep'.1.trans hkeep.1, hkeep'.2.trans hkeep.2⟩, fun i => ?_⟩
    rw [hview', hview]
    cases hc : c.written i <;> simp [lastWritten, hc]

/-- Slots with the same bytes are the same. -/
theorem slots_eq_of_slotBytes {key : Hash}
    (h : ∀ i < storageSize, hashOfNat (i / 32) = key → slotBytes slots i = slotBytes slots' i) :
    slots key = slots' key := by
  have hbytes : (slots key).bytes = (slots' key).bytes := by
    apply ext_getElem (by rw [Hash.length_bytes, Hash.length_bytes])
    intro j hj hj'
    rw [Hash.length_bytes] at hj
    have hlt : 32 * Fin.val key + j < storageSize := by
      unfold storageSize
      omega
    have hdiv : (32 * Fin.val key + j) / 32 = Fin.val key := by omega
    have hmod : (32 * Fin.val key + j) % 32 = j := by omega
    have hkey : hashOfNat (Fin.val key) = key := Fin.ofNat_val_eq_self key
    have hb := h _ hlt (by rw [hdiv, hkey])
    rw [slotBytes_eq hlt, slotBytes_eq hlt, hdiv, hmod, hkey] at hb
    simpa [hj, Hash.length_bytes] using hb
  rw [← hashOfBytes_bytes (slots key), hbytes, hashOfBytes_bytes]

/-- After any calls within the storage, a read returns for each byte the last value written to
    it, or else the value in the state.  After a flush a fresh stream returns the same bytes, and
    every slot without a written byte is as before. -/
theorem stream_faithful (s : StateDB) (a : Address) (calls : List StreamCall)
    (h : ∀ c ∈ calls, c.Within) :
    ∃ st, calls.foldlM (fun st c => c.exec st) (newStorageStream a s) = .ok st ∧
      (∀ n off : ℕ, off + n ≤ storageSize →
        (st.readAt n off).map Prod.fst = .ok ((List.range n).map fun i =>
          (lastWritten calls (off + i)).getD (storageBytes s a (off + i))) ∧
        ((newStorageStream a (st.flush s)).readAt n off).map Prod.fst =
          (st.readAt n off).map Prod.fst) ∧
      ∀ b key, (b = a → ∀ i < storageSize, hashOfNat (i / 32) = key → lastWritten calls i = none) →
        (st.flush s).getState b key = s.getState b key := by
  obtain ⟨st, hst, ⟨rfl, rfl⟩, hview⟩ := foldlM_exec s a calls h
  refine ⟨st, hst, fun n off hoff => ?_, fun b key hb => ?_⟩
  · obtain ⟨st₁, hread, -⟩ := readAt_within hoff st
    obtain ⟨st₂, hfresh, -⟩ :=
      readAt_within hoff (newStorageStream st.tokenAddress (st.flush st.stateDb))
    rw [view_newStorageStream, storageBytes_flush rfl] at hfresh
    rw [hread, hfresh]
    refine ⟨congrArg Except.ok ?_, rfl⟩
    exact map_congr_left fun i _ => hview (off + i)
  · rw [getState_flush]
    split_ifs with heq
    · subst heq
      refine @slots_eq_of_slotBytes st.slotValue _ key fun i hi hkey => ?_
      exact (hview i).trans (by rw [hb rfl i hi hkey]; rfl)
    · rfl

/-- Two overlapping writes over the border of a slot. -/
theorem stream_faithful_overlap :
    (∀ c ∈ [StreamCall.writeAt [1, 2, 3] 31, .writeAt [9] 32], c.Within) ∧
    ∃ st, [StreamCall.writeAt [1, 2, 3] 31, .writeAt [9] 32].foldlM (fun st c => c.exec st)
        (newStorageStream 7 .empty) = .ok st ∧
      (st.readAt 4 31).map Prod.fst = .ok [1, 9, 3, 0] := by
  have hin : ∀ c ∈ [StreamCall.writeAt [1, 2, 3] 31, .writeAt [9] 32], c.Within := by
    simp [StreamCall.Within, storageSize]
  obtain ⟨st, hst, hread, -⟩ := stream_faithful .empty 7 _ hin
  exact ⟨hin, st, hst, (hread 4 31 (by decide)).1.trans (by decide +kernel)⟩

end Gwat.Token
