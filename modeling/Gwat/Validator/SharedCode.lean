/-
  The deposit count and the validators' list in one byte string.
-/
import Gwat.Validator.ValidatorList
import Gwat.Validator.DepositFrame

namespace Gwat

open GoLib List StateDB

namespace SharedCode

/-! ## Slices -/

/-- `b[lo:hi]` -/
def slice (b : Bytes) (lo hi : ℕ) : Except ValError Bytes :=
  if lo ≤ hi ∧ hi ≤ b.length then .ok ((b.take hi).drop lo) else .error .panic

/-- `copy(b[lo:lo+len(v)], v)` -/
def patch (b : Bytes) (lo : ℕ) (v : Bytes) : Except ValError Bytes :=
  if lo + v.length ≤ b.length then .ok (b.take lo ++ v ++ b.drop (lo + v.length))
  else .error .panic

/-- `binary.BigEndian.Uint64(b[:8])` -/
def readCount (b : Bytes) : Except ValError UInt64 := do
  return UInt64.ofNat (natOfBytes (← slice b 0 8))

/-! ## The operations -/

/-- The loop of `GetValidatorsList`. -/
def readFrom (buf : Bytes) (i : ℕ) : Except ValError (List Address) :=
  if i + 20 ≤ buf.length then do
    let address := addressOfBytes (← slice buf i (i + 20))
    let rest ← readFrom buf (i + 20)
    return if address ≠ 0 then address :: rest else rest
  else .ok []
termination_by buf.length - i

def getValidatorsList (s : StateDB) (valAddr : Address) : Except ValError (List Address) :=
  readFrom (s.getCode valAddr) 8

/-- The loop of `SetValidatorsList`. -/
def writeFrom : Bytes → ℕ → List Address → Except ValError Bytes
  | newList, _, [] => .ok newList
  | newList, i, validator :: list => do
    let newList ← patch newList (i * 20 + 8) validator.bytes
    writeFrom newList (i + 1) list

def setValidatorsList (s : StateDB) (valAddr : Address) (list : List Address) :
    Except ValError StateDB := do
  let newList := List.replicate (list.length * 20 + 8) 0
  let currentList := s.getCode valAddr
  let newList ← if 0 < currentList.length then do
      let depositCount ← readCount currentList
      patch newList 0 (uint64BytesBE depositCount)
    else .ok newList
  let newList ← writeFrom newList 0 list
  return s.setCode valAddr newList

def getDepositCount (s : StateDB) (valAddr : Address) : Except ValError UInt64 :=
  let buf := s.getCode valAddr
  if buf = [] then .ok 0 else readCount buf

def incrementDepositCount (s : StateDB) (valAddr : Address) : Except ValError StateDB := do
  let buf := s.getCode valAddr
  let buf := if buf = [] then List.replicate 8 0 else buf
  let currentCount ← readCount buf
  let buf ← patch buf 0 (uint64BytesBE (currentCount + 1))
  return s.setCode valAddr buf

def addValidatorToList (s : StateDB) (valAddr : Address) (index : UInt64) (validator : Address) :
    Except ValError StateDB := do
  let list ← getValidatorsList s valAddr
  if validator ∈ list then return s
  else
    let list := list ++ List.replicate (index.toNat + 1 - list.length) 0
    if index.toNat < list.length then
      setValidatorsList s valAddr (list.set index.toNat validator)
    else throw .panic

/-! ## Inside the bounds -/

theorem readCount_eq {b : Bytes} (h : 8 ≤ b.length) :
    readCount b = .ok (UInt64.ofNat (natOfBytes (b.take 8))) := by
  rw [readCount, slice, if_pos ⟨by omega, h⟩, drop_zero]
  rfl

theorem patch_append {pre b v rest : Bytes} {lo : ℕ} (hlo : pre.length = lo)
    (hb : b.length = v.length) : patch (pre ++ b ++ rest) lo v = .ok (pre ++ v ++ rest) := by
  have hlen : (pre ++ b).length = lo + v.length := by rw [length_append, hlo, hb]
  have htake : (pre ++ b ++ rest).take lo = pre := by
    rw [append_assoc, take_left' hlo]
  rw [patch, if_pos, htake, ← hlen, drop_left]
  rw [length_append, hlen]
  omega

theorem patch_head {b v : Bytes} (h : v.length ≤ b.length) :
    patch b 0 v = .ok (v ++ b.drop v.length) := by
  rw [patch, if_pos (by omega), take_zero, nil_append, Nat.zero_add]

theorem addressesOfBytes_cons {b : Bytes} (h : 20 ≤ b.length) :
    addressesOfBytes b = addressOfBytes (b.take 20) :: addressesOfBytes (b.drop 20) := by
  have htake : (b.take 20).length = 20 := by
    rw [length_take]
    omega
  conv_lhs => rw [← take_append_drop 20 b, ← bytes_addressOfBytes htake]
  rw [addressesOfBytes_append]

theorem readFrom_eq (buf : Bytes) (i : ℕ) :
    readFrom buf i = .ok ((addressesOfBytes (buf.drop i)).filter (· ≠ 0)) := by
  induction hn : buf.length - i using Nat.strongRecOn generalizing i with
  | ind n ih =>
    rw [readFrom]
    by_cases h : i + 20 ≤ buf.length
    · have hslice : slice buf i (i + 20) = .ok ((buf.drop i).take 20) := by
        rw [slice, if_pos ⟨by omega, h⟩, drop_take, Nat.add_sub_cancel_left]
      have hcons := @addressesOfBytes_cons (buf.drop i) (by rw [length_drop]; omega)
      rw [drop_drop] at hcons
      rw [if_pos h, hslice, ok_bind, ih _ (by omega) (i + 20) rfl, ok_bind, hcons,
        filter_cons]
      simp only [decide_eq_true_eq]
      rfl
    · have hnil : addressesOfBytes (buf.drop i) = [] := by
        rw [addressesOfBytes, length_drop, Nat.div_eq_of_lt (by omega)]
        rfl
      rw [if_neg h, hnil]
      rfl

section
variable {s : StateDB} {valAddr : Address}

theorem getValidatorsList_eq :
    getValidatorsList s valAddr = .ok (Gwat.getValidatorsList s valAddr) :=
  readFrom_eq _ 8

theorem getDepositCount_eq (h : ListReadable s valAddr) :
    getDepositCount s valAddr = Gwat.getDepositCount s valAddr := by
  rw [getDepositCount, Gwat.getDepositCount]
  by_cases hnil : s.getCode valAddr = []
  · rw [if_pos hnil, if_pos hnil]
  · have hlen := h.resolve_left hnil
    rw [if_neg hnil, if_neg hnil, if_neg (not_lt.2 hlen), readCount_eq hlen]

theorem writeFrom_eq (list : List Address) {pre : Bytes} {i : ℕ} (hpre : pre.length = i * 20 + 8) :
    writeFrom (pre ++ List.replicate (list.length * 20) 0) i list =
      .ok (pre ++ list.flatMap Address.bytes) := by
  induction list generalizing pre i with
  | nil => simp [writeFrom]
  | cons a list ih =>
    have hsplit : pre ++ List.replicate ((a :: list).length * 20) (0 : UInt8) =
        pre ++ List.replicate 20 0 ++ List.replicate (list.length * 20) 0 := by
      rw [append_assoc, ← replicate_add, length_cons]
      congr 2
      omega
    rw [writeFrom, hsplit, patch_append hpre (by simp), ok_bind, ih, flatMap_cons,
      append_assoc]
    rw [length_append, hpre, Address.length_bytes]
    omega

theorem setValidatorsList_eq (h : ListReadable s valAddr) (list : List Address) :
    setValidatorsList s valAddr list = Gwat.setValidatorsList s valAddr list := by
  have hzeros : List.replicate (list.length * 20 + 8) (0 : UInt8) =
      List.replicate 8 0 ++ List.replicate (list.length * 20) 0 := by
    rw [← replicate_add, Nat.add_comm]
  rw [setValidatorsList, Gwat.setValidatorsList, hzeros, Gwat.getDepositCount]
  dsimp only
  by_cases hnil : s.getCode valAddr = []
  · rw [hnil, if_neg (by simp), if_pos rfl, ok_bind, ok_bind, writeFrom_eq list (by simp), ok_bind]
    rfl
  · have hlen := h.resolve_left hnil
    have hpatch : ∀ count, patch (List.replicate 8 0 ++ List.replicate (list.length * 20) 0) 0
        (uint64BytesBE count) =
          .ok (uint64BytesBE count ++ List.replicate (list.length * 20) 0) := fun count =>
      @patch_append [] _ _ _ _ rfl (by simp)
    rw [if_pos (by omega), if_neg hnil, if_neg (not_lt.2 hlen), readCount_eq hlen, ok_bind, ok_bind,
      hpatch, ok_bind, writeFrom_eq list (by simp), ok_bind]

theorem incrementDepositCount_eq (h : ListReadable s valAddr) :
    incrementDepositCount s valAddr = Gwat.incrementDepositCount s valAddr := by
  rw [incrementDepositCount, Gwat.incrementDepositCount, Gwat.getDepositCount]
  dsimp only
  by_cases hnil : s.getCode valAddr = []
  · rw [if_pos hnil, if_pos hnil, if_pos hnil, readCount_eq (by simp), ok_bind, ok_bind]
    rfl
  · have hlen := h.resolve_left hnil
    rw [if_neg hnil, if_neg hnil, if_neg hnil, if_neg (not_lt.2 hlen), readCount_eq hlen, ok_bind,
      ok_bind, patch_head (by simpa using hlen), ok_bind, length_uint64BytesBE]

theorem addValidatorToList_eq (h : ListReadable s valAddr) (index : UInt64) (a : Address) :
    addValidatorToList s valAddr index a = Gwat.addValidatorToList s valAddr index a := by
  rw [addValidatorToList, getValidatorsList_eq, ok_bind, Gwat.addValidatorToList]
  dsimp only
  split_ifs with hmem hlt
  · rfl
  · rw [setValidatorsList_eq h]
  · rw [length_append, length_replicate] at hlt
    omega

/-! ## Runs of operations -/

/-- The operations that write to the shared string. -/
inductive Op where
  | setValidatorsList (list : List Address)
  | addValidatorToList (index : UInt64) (validator : Address)
  | incrementDepositCount
  deriving DecidableEq

/-- One operation on the code of the validators' address. -/
def exec (valAddr : Address) (s : StateDB) : Op → Except ValError StateDB
  | .setValidatorsList list => setValidatorsList s valAddr list
  | .addValidatorToList index validator => addValidatorToList s valAddr index validator
  | .incrementDepositCount => incrementDepositCount s valAddr

/-- A sequence of operations. -/
def run (valAddr : Address) (s : StateDB) (ops : List Op) : Except ValError StateDB :=
  ops.foldlM (exec valAddr) s

/-- The string holds a count and a list. -/
structure Shared (valAddr : Address) (s : StateDB) (count : UInt64) (list : List Address) :
    Prop where
  readable : ListReadable s valAddr
  count : Gwat.getDepositCount s valAddr = .ok count
  list : Gwat.getValidatorsList s valAddr = list

/-- What `AddValidatorToList` makes of a list. -/
def addTo (list : List Address) (index : UInt64) (validator : Address) : List Address :=
  if validator ∈ list then list
  else ((list ++ List.replicate (index.toNat + 1 - list.length) 0).set index.toNat
    validator).filter (· ≠ 0)

/-- The count and the list after an operation: each has its own. -/
def effect (st : UInt64 × List Address) : Op → UInt64 × List Address
  | .setValidatorsList list => (st.1, list.filter (· ≠ 0))
  | .addValidatorToList index validator => (st.1, addTo st.2 index validator)
  | .incrementDepositCount => (st.1 + 1, st.2)

theorem Shared.set {count : UInt64} {l : List Address} (h : Shared valAddr s count l)
    (list : List Address) : ∃ s', Gwat.setValidatorsList s valAddr list = .ok s' ∧
      Shared valAddr s' count (list.filter (· ≠ 0)) := by
  obtain ⟨s', hs', hread, hlist⟩ := setValidatorsList_spec h.readable list
  refine ⟨s', hs', hread, ?_, hlist⟩
  rw [Gwat.setValidatorsList, h.count, ok_bind] at hs'
  cases hs'
  exact getDepositCount_of_getCode (getCode_setCode_self _)

/-- Every operation stays inside the string and changes its own part of it. -/
theorem Shared.exec {st : UInt64 × List Address} (h : Shared valAddr s st.1 st.2) (op : Op) :
    ∃ s', SharedCode.exec valAddr s op = .ok s' ∧
      Shared valAddr s' (effect st op).1 (effect st op).2 := by
  cases op with
  | setValidatorsList list =>
    rw [SharedCode.exec, setValidatorsList_eq h.readable]
    exact h.set list
  | addValidatorToList index validator =>
    rw [SharedCode.exec, addValidatorToList_eq h.readable, Gwat.addValidatorToList, h.list, effect,
      addTo]
    dsimp only
    split_ifs with hmem
    · exact ⟨s, rfl, h⟩
    · exact h.set _
  | incrementDepositCount =>
    rw [SharedCode.exec, incrementDepositCount_eq h.readable]
    have hstep := (@incrementDepositCount_eq_ok s _ valAddr).2 ⟨st.1, h.count, rfl⟩
    refine ⟨_, hstep, ?_, ?_, ?_⟩
    · right
      rw [getCode_setCode_self, withDepositCount, length_append, length_uint64BytesBE]
      omega
    · exact getDepositCount_of_getCode (getCode_setCode_self _)
    · rw [effect, ← h.list, Gwat.getValidatorsList, Gwat.getValidatorsList,
        getCode_setCode_self, withDepositCount, drop_left' (length_uint64BytesBE _)]

theorem Shared.run {st : UInt64 × List Address} (h : Shared valAddr s st.1 st.2) (ops : List Op) :
    ∃ s', SharedCode.run valAddr s ops = .ok s' ∧
      Shared valAddr s' (ops.foldl effect st).1 (ops.foldl effect st).2 := by
  induction ops generalizing s st with
  | nil => exact ⟨s, rfl, h⟩
  | cons op ops ih =>
    obtain ⟨s₁, hs₁, h₁⟩ := h.exec op
    obtain ⟨s₂, hs₂, h₂⟩ := ih h₁
    exact ⟨s₂, by rw [SharedCode.run, foldlM_cons, hs₁, ok_bind]; exact hs₂, h₂⟩

theorem foldl_effect_count (ops : List Op) (st : UInt64 × List Address) :
    (ops.foldl effect st).1 = st.1 + UInt64.ofNat (ops.count .incrementDepositCount) := by
  induction ops generalizing st with
  | nil => simp
  | cons op ops ih =>
    rw [foldl_cons, ih]
    cases op with
    | setValidatorsList list => simp [effect]
    | addValidatorToList index validator => simp [effect]
    | incrementDepositCount =>
      rw [count_cons_self, effect, UInt64.ofNat_add]
      simp only [UInt64.add_assoc]
      congr 1
      exact UInt64.add_comm _ _

theorem foldl_effect_list (ops : List Op) (st : UInt64 × List Address) (n : UInt64) :
    (ops.foldl effect st).2 =
      ((ops.filter (· ≠ .incrementDepositCount)).foldl effect (n, st.2)).2 := by
  induction ops generalizing st n with
  | nil => rfl
  | cons op ops ih =>
    cases op with
    | setValidatorsList list =>
      rw [filter_cons_of_pos (by simp), foldl_cons, foldl_cons]
      exact ih _ n
    | addValidatorToList index validator =>
      rw [filter_cons_of_pos (by simp), foldl_cons, foldl_cons]
      exact ih _ n
    | incrementDepositCount =>
      rw [filter_cons_of_neg (by simp), foldl_cons]
      exact ih _ n

theorem shared_of_noCode (h : s.getCode valAddr = []) : Shared valAddr s 0 [] where
  readable := .inl h
  count := by rw [Gwat.getDepositCount, if_pos h]
  list := by rw [Gwat.getValidatorsList, h]; rfl

/-- From an account without code every run of operations stays inside the shared string: the
    deposit count is the number of increments modulo 2^64, the list is the one the run would give
    without its increments, and one more increment leaves the list as it is. -/
theorem sharedCode_frame (h : s.getCode valAddr = []) (ops : List Op) :
    ∃ s' s₀ s₁ list, run valAddr s ops = .ok s' ∧
      getDepositCount s' valAddr = .ok (UInt64.ofNat (ops.count .incrementDepositCount)) ∧
      getValidatorsList s' valAddr = .ok list ∧
      run valAddr s (ops.filter (· ≠ .incrementDepositCount)) = .ok s₀ ∧
      getValidatorsList s₀ valAddr = .ok list ∧
      incrementDepositCount s' valAddr = .ok s₁ ∧ getValidatorsList s₁ valAddr = .ok list := by
  have hstart := shared_of_noCode h
  obtain ⟨s', hs', h'⟩ := @Shared.run _ _ (0, []) hstart ops
  obtain ⟨s₀, hs₀, h₀⟩ :=
    @Shared.run _ _ (0, []) hstart (ops.filter (· ≠ .incrementDepositCount))
  obtain ⟨s₁, hs₁, h₁⟩ := h'.exec .incrementDepositCount
  refine ⟨s', s₀, s₁, (ops.foldl effect (0, [])).2, hs', ?_, ?_, hs₀, ?_, hs₁, ?_⟩
  · rw [getDepositCount_eq h'.readable, h'.count, foldl_effect_count]
    simp
  · rw [getValidatorsList_eq, h'.list]
  · rw [getValidatorsList_eq, h₀.list, foldl_effect_list ops _ 0]
  · rw [getValidatorsList_eq, h₁.list]
    rfl

theorem sharedCode_frame_empty :
    StateDB.empty.getCode 100 = [] ∧
    ∃ s' s₀ s₁ list, run 100 empty [.incrementDepositCount, .addValidatorToList 2 7] =
        .ok s' ∧
      getDepositCount s' 100 = .ok (UInt64.ofNat (List.count Op.incrementDepositCount
        [.incrementDepositCount, .addValidatorToList 2 7])) ∧
      getValidatorsList s' 100 = .ok list ∧
      run 100 empty ([Op.incrementDepositCount, .addValidatorToList 2 7].filter
        (· ≠ .incrementDepositCount)) = .ok s₀ ∧
      getValidatorsList s₀ 100 = .ok list ∧
      incrementDepositCount s' 100 = .ok s₁ ∧ getValidatorsList s₁ 100 = .ok list :=
  ⟨rfl, sharedCode_frame rfl [.incrementDepositCount, .addValidatorToList 2 7]⟩

end

end SharedCode

end Gwat
