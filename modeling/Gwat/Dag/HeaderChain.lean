/-
  Headers, checkpoints and the stored ancestor lists (`core/headerchain.go`,
  `core/types/block.go`, `core/types/block_dag.go`).
-/
import Gwat.Dag.Block

namespace Gwat

open GoLib List

/-- The fields of a header that describe the state after the block. -/
structure HeaderState where
  root : Hash
  receiptHash : Hash
  gasUsed : ℕ
  bloom : Bytes
  baseFee : ℕ
  deriving DecidableEq, Repr

/-- `types.Header`: a block with its checkpoint, the state it leads to and the state of the
    checkpoint. -/
structure Header extends Block where
  cpHash : Hash
  cpNumber : ℕ
  state : HeaderState
  cpState : HeaderState
  deriving DecidableEq, Repr

def plainState : HeaderState := ⟨0, 0, 0, [], 0⟩

/-- A header given by its place in the DAG. -/
def plainHeader (hash : Hash) (parents : List Hash) (slot height : ℕ) (cpHash : Hash)
    (cpNumber : ℕ) : Header :=
  ⟨⟨hash, parents, slot, height⟩, cpHash, cpNumber, plainState, plainState⟩

/-- `types.BlockDAG`, stored under the hash of its block. -/
structure BlockDag where
  slot : ℕ
  cpHash : Hash
  cpHeight : ℕ
  orderedAncestorsHashes : List Hash
  deriving DecidableEq, Repr

/-- What `core.HeaderChain` has stored.  `collected cp` are the ancestors that
    `CollectAncestorsAftCpByParents` finds between the checkpoint of `cp` and `cp`, and the missing
    ones, or nothing if it fails; the call itself is `collectAncestorsAftCpByParents`. -/
structure HeaderChain where
  headers : List Header
  nodup : (headers.map fun b => b.hash).Nodup
  genesis : Hash
  number : Hash → Option ℕ
  blockDag : Hash → Option BlockDag
  collected : Hash → Option (List Hash × List Hash)

inductive VerifyError
  | futureBlock
  | insertUncompletedDag
  | creators
  | empty
  | hibernate
  | nilPointer
  deriving DecidableEq, Repr

namespace HeaderChain

variable {hc : HeaderChain}
variable {b p : Header} {q h cpHash : Hash}

/-- `hc.GetHeader` -/
def getHeader (hc : HeaderChain) (h : Hash) : Option Header :=
  hc.headers.find? fun b => b.hash = h

/-- `header.Nr()`, which is zero for a block that is not finalized. -/
def nr (hc : HeaderChain) (h : Hash) : ℕ := (hc.number h).getD 0

theorem getHeader_eq_some : hc.getHeader h = some b ↔ b ∈ hc.headers ∧ b.hash = h :=
  find?_key_eq_some hc.nodup

theorem getHeader_of_mem (hb : b ∈ hc.headers) : hc.getHeader b.hash = some b :=
  getHeader_eq_some.2 ⟨hb, rfl⟩

theorem isSome_getHeader : (hc.getHeader h).isSome ↔ ∃ b ∈ hc.headers, b.hash = h := by
  simp [getHeader]

/-- `p` is listed as a parent of the stored block `c`. -/
def Parent (hc : HeaderChain) (c p : Hash) : Prop :=
  ∃ b, hc.getHeader c = some b ∧ p ∈ b.parentHashes

/-- `a` is an ancestor of `h`. -/
def Ancestor (hc : HeaderChain) (h a : Hash) : Prop := Relation.TransGen hc.Parent h a

theorem parent_iff (hb : b ∈ hc.headers) {p : Hash} : hc.Parent b.hash p ↔ p ∈ b.parentHashes := by
  simp [Parent, getHeader_of_mem hb]

/-- Every parent of a stored block is stored. -/
def Complete (hc : HeaderChain) : Prop :=
  ∀ b ∈ hc.headers, ∀ p ∈ b.parentHashes, (hc.getHeader p).isSome

instance (hc : HeaderChain) : Decidable hc.Complete :=
  inferInstanceAs (Decidable (∀ b ∈ hc.headers, ∀ p ∈ b.parentHashes, _))

/-! ## Collecting ancestors from the stored lists -/

/-- What `CollectAncestorsAftCpByTips` returns. -/
structure Collected where
  isCpAncestor : Bool
  ancestors : List Hash
  unloaded : List Hash
  deriving DecidableEq, Repr

/-- The stored lists of the given blocks. -/
def tips (hc : HeaderChain) (parents : List Hash) : List (Hash × BlockDag) :=
  parents.filterMap fun h => (hc.blockDag h).map (h, ·)

/-- `cpBlDag.OrderedAncestorsHashes`: the stored ancestors of the checkpoint, which are
    collected anew if they are not stored. -/
def cpAncestors (hc : HeaderChain) (cpHash : Hash) : Except VerifyError (Option (List Hash)) :=
  match hc.blockDag cpHash with
  | some d => .ok (some d.orderedAncestorsHashes)
  | none =>
    match hc.getHeader cpHash with
    | none => .error .nilPointer
    | some cpHead =>
      match hc.getHeader cpHead.cpHash with
      | none => .ok none
      | some _ => .ok ((hc.collected cpHash).map Prod.fst)

/-- Whether the ancestor `h` stays among the collected ones: its header is stored, it is not the
    checkpoint and was not finalized below the checkpoint. -/
def kept (hc : HeaderChain) (cpHash : Hash) (cpAnc : List Hash) (h : Hash) : Bool :=
  match hc.getHeader h with
  | none => false
  | some anc => decide (h ≠ cpHash ∧ ¬ (0 < anc.height ∧ 0 < hc.nr h ∧ h ∈ cpAnc))

/-- `hc.CollectAncestorsAftCpByTips` -/
def collectAncestorsAftCpByTips (hc : HeaderChain) (parents : List Hash) (cpHash : Hash) :
    Except VerifyError Collected := do
  let tips := hc.tips parents
  let unloaded := parents.filter fun h => (hc.blockDag h).isNone
  let isCpAncestor :=
    tips.any fun t => t.2.cpHash = cpHash ∨ cpHash ∈ t.2.orderedAncestorsHashes
  let ancHashes := (tips.flatMap fun t => t.2.orderedAncestorsHashes ++ [t.1]).dedup
  match ← hc.cpAncestors cpHash with
  | none => return ⟨isCpAncestor, [], unloaded⟩
  | some cpAnc => return ⟨isCpAncestor, ancHashes.filter (hc.kept cpHash cpAnc), unloaded⟩

/-- `bc.IsAncestorByTips` -/
def isAncestorByTips (hc : HeaderChain) (header : Header) (ancestorHash : Hash) :
    Except VerifyError Bool :=
  if header.hash = ancestorHash then .ok false
  else if hc.genesis = ancestorHash then .ok true
  else if ancestorHash ∈ header.parentHashes then .ok true
  else
    match hc.getHeader ancestorHash with
    | none => .error .insertUncompletedDag
    | some _ =>
      if 0 < hc.nr ancestorHash ∧ hc.nr ancestorHash < header.cpNumber then .ok true
      else do
        let c ← hc.collectAncestorsAftCpByTips header.parentHashes header.cpHash
        failIf (c.unloaded ≠ []) .insertUncompletedDag
        return decide (ancestorHash ∈ c.ancestors)

/-! ## Stores that describe the DAG -/

/-- The block is settled by the checkpoint of `r`: its number is not above the checkpoint's. -/
def Settled (hc : HeaderChain) (r : Header) (x : Hash) : Prop := ∃ n ∈ hc.number x, n ≤ r.cpNumber

instance (r : Header) (x : Hash) : Decidable (hc.Settled r x) :=
  inferInstanceAs (Decidable (∃ n ∈ hc.number x, n ≤ r.cpNumber))

/-- The stored data is that of a DAG: slots increase along the edges, the finalized numbers
    follow the edges and are those the checkpoints are named with, and every stored list is
    closed under parents up to the blocks its checkpoint settles. -/
structure Sound (hc : HeaderChain) : Prop where
  slots : ∀ b ∈ hc.headers, ∀ p ∈ hc.headers, p.hash ∈ b.parentHashes → p.slot < b.slot
  root : ∀ b ∈ hc.headers, b.height = 0 → b.parentHashes = []
  numbers : ∀ b ∈ hc.headers, ∀ k ∈ hc.number b.hash, ∀ p ∈ b.parentHashes,
    ∃ j ∈ hc.number p, j < k
  positive : ∀ b ∈ hc.headers, b.hash ≠ hc.genesis → hc.number b.hash ≠ some 0
  cpNumber : ∀ b ∈ hc.headers, b.parentHashes ≠ [] → hc.number b.cpHash = some b.cpNumber
  cpUnique : ∀ b ∈ hc.headers, ∀ p ∈ hc.headers, p.parentHashes ≠ [] →
    hc.number b.hash = some p.cpNumber → b.hash = p.cpHash
  cpMono : ∀ b ∈ hc.headers, ∀ p ∈ hc.headers, p.hash ∈ b.parentHashes → p.parentHashes ≠ [] →
    p.cpNumber ≤ b.cpNumber
  parents : ∀ r ∈ hc.headers, ∀ d ∈ hc.blockDag r.hash, ∀ x ∈ r.parentHashes,
    x ∈ d.orderedAncestorsHashes ∨ hc.Settled r x
  closed : ∀ r ∈ hc.headers, ∀ d ∈ hc.blockDag r.hash, ∀ a ∈ hc.headers,
    a.hash ∈ d.orderedAncestorsHashes → ∀ x ∈ a.parentHashes,
      x ∈ d.orderedAncestorsHashes ∨ hc.Settled r x
  below : ∀ r ∈ hc.headers, r.parentHashes ≠ [] → ∀ l, hc.cpAncestors r.cpHash = .ok (some l) →
    ∀ a ∈ l, ∀ k ∈ hc.number a, k < r.cpNumber
  complete : ∀ r ∈ hc.headers, r.parentHashes ≠ [] → hc.cpAncestors r.cpHash ≠ .ok none

/-! ## Ancestors -/

theorem Ancestor.cases (hb : b ∈ hc.headers) (h : hc.Ancestor b.hash q) :
    q ∈ b.parentHashes ∨ ∃ r ∈ hc.headers, r.hash ∈ b.parentHashes ∧ hc.Ancestor r.hash q := by
  obtain ⟨c, hbc, hcq⟩ := Relation.TransGen.head'_iff.1 h
  rw [parent_iff hb] at hbc
  obtain rfl | ⟨d, hcd, hdq⟩ := Relation.ReflTransGen.cases_head hcq
  · exact .inl hbc
  · obtain ⟨r, hr, hrp⟩ := hcd
    obtain ⟨hrm, rfl⟩ := getHeader_eq_some.1 hr
    exact .inr ⟨r, hrm, hbc, .head' ((parent_iff hrm).2 hrp) hdq⟩

theorem Ancestor.parentHashes_ne_nil (hb : b ∈ hc.headers) (h : hc.Ancestor b.hash q) :
    b.parentHashes ≠ [] := by
  obtain hq | ⟨r, -, hr, -⟩ := h.cases hb
  · exact ne_nil_of_mem hq
  · exact ne_nil_of_mem hr

theorem slot_lt_of_ancestor
    (hslots : ∀ b ∈ hc.headers, ∀ p ∈ hc.headers, p.hash ∈ b.parentHashes → p.slot < b.slot)
    {q : Header} (hb : b ∈ hc.headers) (hq : q ∈ hc.headers) (h : hc.Ancestor b.hash q.hash) :
    q.slot < b.slot := by
  generalize hy : q.hash = y at h
  induction h generalizing q with
  | single hp => exact hslots b hb q hq (hy ▸ (parent_iff hb).1 hp)
  | tail hbc hp ih =>
    obtain ⟨c, hcg, hp⟩ := hp
    obtain ⟨hcm, rfl⟩ := getHeader_eq_some.1 hcg
    exact (hslots c hcm q hq (hy ▸ hp)).trans (ih hcm rfl)

namespace Sound

variable {b q r a : Header}

theorem slot_lt (hs : hc.Sound) (hb : b ∈ hc.headers) (hq : q ∈ hc.headers)
    (h : hc.Ancestor b.hash q.hash) : q.slot < b.slot :=
  slot_lt_of_ancestor hs.slots hb hq h

theorem ne_of_ancestor (hs : hc.Sound) (hb : b ∈ hc.headers) (hq : q ∈ hc.headers)
    (h : hc.Ancestor b.hash q.hash) : b.hash ≠ q.hash := by
  intro heq
  have hbq : b = q := inj_on_of_nodup_map hc.nodup hb hq heq
  exact absurd (hs.slot_lt hb hq h) (by rw [hbq]; exact lt_irrefl _)

theorem settled_parent (hs : hc.Sound) {x : Hash} (ha : a ∈ hc.headers) (h : hc.Settled r a.hash)
    (hx : x ∈ a.parentHashes) : hc.Settled r x := by
  obtain ⟨n, hn, hle⟩ := h
  obtain ⟨j, hj, hlt⟩ := hs.numbers a ha n hn x hx
  exact ⟨j, hj, hlt.le.trans hle⟩

theorem listed_or_settled (hs : hc.Sound) {d : BlockDag} {q : Hash} (hr : r ∈ hc.headers)
    (hd : hc.blockDag r.hash = some d) (h : hc.Ancestor r.hash q) :
    q ∈ d.orderedAncestorsHashes ∨ hc.Settled r q := by
  induction h with
  | single hp => exact hs.parents r hr d hd _ ((parent_iff hr).1 hp)
  | tail _ hp ih =>
    obtain ⟨a, hag, hp⟩ := hp
    obtain ⟨ham, rfl⟩ := getHeader_eq_some.1 hag
    rcases ih with hl | hset
    · exact hs.closed r hr d hd a ham hl _ hp
    · exact .inr (hs.settled_parent ham hset hp)

end Sound

/-! ## What `IsAncestorByTips` overlooks -/

variable {parents : List Hash}

/-- `IsAncestorByTips` does not see `q` as an ancestor of `p`: `q` is the checkpoint of `p`, is
    not one of its parents and not the genesis block. -/
def Overlooked (hc : HeaderChain) (p : Header) (q : Hash) : Prop :=
  q = p.cpHash ∧ q ∉ p.parentHashes ∧ q ≠ hc.genesis

instance (p : Header) (q : Hash) : Decidable (hc.Overlooked p q) :=
  inferInstanceAs (Decidable (_ ∧ _))

theorem mem_tips {d : BlockDag} (hh : h ∈ parents) (hd : hc.blockDag h = some d) :
    (h, d) ∈ hc.tips parents :=
  mem_filterMap.2 ⟨h, hh, by simp [hd]⟩

/-- With every parent loaded, what is collected for a block are the stored ancestors of its
    parents that are kept. -/
theorem collect_eq_ok {c : Collected} (h : hc.collectAncestorsAftCpByTips parents cpHash = .ok c) :
    c.unloaded = parents.filter (fun h => (hc.blockDag h).isNone) ∧
    (hc.cpAncestors cpHash = .ok none ∨ ∃ l, hc.cpAncestors cpHash = .ok (some l) ∧
      ∀ q, q ∈ c.ancestors ↔
        (∃ t ∈ hc.tips parents, q ∈ t.2.orderedAncestorsHashes ∨ q = t.1) ∧
          hc.kept cpHash l q = true) := by
  obtain ⟨o, ho, h⟩ := bind_eq_ok.1 h
  cases o with
  | none =>
    cases h
    exact ⟨rfl, .inl ho⟩
  | some l =>
    cases h
    refine ⟨rfl, .inr ⟨l, ho, fun q => ?_⟩⟩
    simp [mem_filter, mem_flatMap]

/-- `IsAncestorByTips` answers no for a stored ancestor only where it overlooks it. -/
theorem Sound.isAncestorByTips_false (hs : hc.Sound) {q : Header} (hp : p ∈ hc.headers)
    (hq : q ∈ hc.headers) (hanc : hc.Ancestor p.hash q.hash)
    (h : hc.isAncestorByTips p q.hash = .ok false) : hc.Overlooked p q.hash := by
  have hne : p.hash ≠ q.hash := hs.ne_of_ancestor hp hq hanc
  have hpar : p.parentHashes ≠ [] := hanc.parentHashes_ne_nil hp
  rw [isAncestorByTips, if_neg hne, getHeader_of_mem hq] at h
  split_ifs at h with hgen hmem hlow
  iterate 3 cases h
  refine ⟨?_, hmem, Ne.symm hgen⟩
  -- a settled ancestor that is not strictly below the checkpoint is the checkpoint
  have hcp : ∀ n, hc.number q.hash = some n → n ≤ p.cpNumber → q.hash = p.cpHash := by
    intro n hn hle
    have hpos : n ≠ 0 := fun h0 => hs.positive q hq (Ne.symm hgen) (h0 ▸ hn)
    have hnr : hc.nr q.hash = n := by simp [nr, hn]
    have : n = p.cpNumber := by omega
    exact hs.cpUnique q hq p hp hpar (this ▸ hn)
  obtain ⟨c, hcol, h⟩ := bind_eq_ok.1 h
  obtain ⟨u, hunl, h⟩ := bind_eq_ok.1 h
  rw [failIf_eq_ok, not_not] at hunl
  obtain ⟨hunl', hanc'⟩ := collect_eq_ok hcol
  have hnotin : q.hash ∉ c.ancestors := by simpa using h
  obtain ⟨r, hr, hrp, hrq⟩ := (hanc.cases hp).resolve_left hmem
  obtain ⟨d, hd⟩ : ∃ d, hc.blockDag r.hash = some d := by
    rw [hunl'] at hunl
    have := filter_eq_nil_iff.1 hunl _ hrp
    exact Option.ne_none_iff_exists'.1 (by simpa using this)
  rcases hs.listed_or_settled hr hd hrq with hl | ⟨n, hn, hle⟩
  · obtain hnone | ⟨l, hcl, hmemc⟩ := hanc'
    · exact absurd hnone (hs.complete p hp hpar)
    · have hk : ¬ hc.kept p.cpHash l q.hash = true := fun hk =>
        hnotin ((hmemc _).2 ⟨⟨_, mem_tips hrp hd, .inl hl⟩, hk⟩)
      rw [kept, getHeader_of_mem hq] at hk
      by_contra hcpne
      obtain ⟨-, hnr, hql⟩ := not_not.1 fun hlow => hk (decide_eq_true ⟨hcpne, hlow⟩)
      obtain ⟨k, hk⟩ : ∃ k, hc.number q.hash = some k := by
        cases hn : hc.number q.hash with
        | none => simp [nr, hn] at hnr
        | some k => exact ⟨k, rfl⟩
      exact hcpne (hcp k hk (hs.below p hp hpar l hcl _ hql k hk).le)
  · exact hcp n hn (hle.trans (hs.cpMono p hp r hr hrp (hrq.parentHashes_ne_nil hr)))

end HeaderChain

end Gwat
