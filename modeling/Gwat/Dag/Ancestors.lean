/-
  Collecting ancestors by recursion over the parents (`CollectAncestorsAftCpByParents` in
  `core/headerchain.go`).

  The recursion walks from the parents of a block down to a finalized checkpoint.  It stops at
  the checkpoint, at blocks finalized before it and at missing blocks, and remembers what it
  found below each parent in a cache of 1024 entries.
-/
import Gwat.Dag.HeaderChain
import Gwat.Lib.Memo

namespace Gwat

open GoLib List

inductive CollectError
  | cpNotFinalized
  | withoutParents (hash : Hash) (height : ℕ)
  deriving DecidableEq, Repr

/-- What the recursion returns: whether it met the checkpoint, the ancestors after the
    checkpoint, the hashes of missing blocks, and an error. -/
@[ext]
structure AncestorsResult where
  isCpAncestor : Bool
  ancestors : Finset Hash
  unloaded : List Hash
  err : Option CollectError

-- a derived instance would not compute, since equal sets need not be the same term
instance : DecidableEq AncestorsResult := fun _ _ => decidable_of_iff _ AncestorsResult.ext_iff.symm

/-- An entry of the cache: a result with the checkpoint it is for. -/
structure CollectAncestorsResult extends AncestorsResult where
  cpHash : Hash

namespace AncestorsResult

def nothing : AncestorsResult := ⟨false, ∅, [], none⟩

/-- Adds what was found below one parent; the error is that of the last parent. -/
def merge (r r' : AncestorsResult) : AncestorsResult where
  isCpAncestor := r.isCpAncestor || r'.isCpAncestor
  ancestors := r.ancestors ∪ r'.ancestors
  unloaded := (r.unloaded ++ r'.unloaded).eraseDups
  err := r'.err

/-- Adds what was found from one of the heads. -/
def join (r r' : AncestorsResult) : AncestorsResult where
  isCpAncestor := r.isCpAncestor || r'.isCpAncestor
  ancestors := r.ancestors ∪ r'.ancestors
  unloaded := if r'.unloaded = [] then r.unloaded else (r.unloaded ++ r'.unloaded).eraseDups
  err := r'.err

end AncestorsResult

def ancestorCacheLimit : ℕ := 32 * 8 * 4

abbrev AncestorCache := Lru Hash CollectAncestorsResult

/-- The rank of a block in DAGs where parents have smaller hashes. -/
def byValue (h : Hash) : ℕ := Fin.val h

namespace HeaderChain

/-- `cpHeader.Height > 0 && cpHeader.Nr() == 0` -/
def Unfinalized (hc : HeaderChain) (header : Header) : Prop :=
  0 < header.height ∧ hc.nr header.hash = 0

instance (hc : HeaderChain) (header : Header) : Decidable (hc.Unfinalized header) :=
  inferInstanceAs (Decidable (_ ∧ _))

/-- The header is finalized before the checkpoint. -/
def FinalizedBefore (hc : HeaderChain) (cp header : Header) : Prop :=
  ¬ hc.Unfinalized header ∧ hc.nr header.hash < hc.nr cp.hash

instance (hc : HeaderChain) (cp header : Header) : Decidable (hc.FinalizedBefore cp header) :=
  inferInstanceAs (Decidable (_ ∧ _))

/-- What the recursion does at a block before it looks at the parents: it stops with a result,
    or goes on with the header. -/
def visit (hc : HeaderChain) (cp : Header) (headHash : Hash) : AncestorsResult ⊕ Header :=
  if hc.Unfinalized cp then .inl ⟨false, ∅, [], some .cpNotFinalized⟩
  else
    match hc.getHeader headHash with
    | none => .inl ⟨false, ∅, [headHash], none⟩
    | some header =>
      if header.hash = cp.hash then .inl ⟨true, ∅, [], none⟩
      else if hc.FinalizedBefore cp header then .inl .nothing
      else if header.parentHashes = [] then
        if header.hash = hc.genesis then .inl .nothing
        else .inl ⟨false, ∅, [], some (.withoutParents header.hash header.height)⟩
      else .inr header

section

variable {m : Type → Type} [Monad m]

/-- One level of `collectAncestorsAftCpByParents`; `below` gives the result for a parent. -/
def collectStep (hc : HeaderChain) (cp : Header) (below : Hash → m AncestorsResult)
    (headHash : Hash) : m AncestorsResult :=
  match hc.visit cp headHash with
  | .inl r => return r
  | .inr header =>
    header.parentHashes.foldlM (fun r ph => return r.merge (← below ph))
      ⟨false, {header.hash}, [], none⟩

/-- The loop of `CollectAncestorsAftCpByParents`, which stops at the first error. -/
def collectLoop (below : Hash → m AncestorsResult) :
    List Hash → AncestorsResult → m AncestorsResult
  | [], acc => return acc
  | h :: hs, acc => do
    let r ← below h
    if r.err.isSome then return { acc with err := r.err }
    else collectLoop below hs (acc.join r)

end

/-- The recursion without the cache. -/
def ancestorsWithin (hc : HeaderChain) (cp : Header) : ℕ → Hash → AncestorsResult
  | 0, _ => .nothing
  | fuel + 1, headHash =>
    Id.run (hc.collectStep cp (fun ph => hc.ancestorsWithin cp fuel ph) headHash)

/-- `hc.collectAncestorsAftCpByParents` -/
def cachedWithin (hc : HeaderChain) (cp : Header) :
    ℕ → Hash → StateM AncestorCache AncestorsResult
  | 0, _ => return .nothing
  | fuel + 1, headHash =>
    hc.collectStep cp (fun ph => do
      let e ← memoize ancestorCacheLimit (fun e => e.cpHash = cp.hash) ph do
        return ⟨← hc.cachedWithin cp fuel ph, cp.hash⟩
      return e.toAncestorsResult) headHash

section

variable (rank : Hash → ℕ)

/-- Parents of stored blocks have smaller ranks. -/
def Ranked (hc : HeaderChain) : Prop :=
  ∀ b ∈ hc.headers, ∀ p ∈ b.parentHashes, rank p < rank b.hash

instance (hc : HeaderChain) : Decidable (hc.Ranked rank) :=
  inferInstanceAs (Decidable (∀ b ∈ hc.headers, ∀ p ∈ b.parentHashes, _))

/-- The recursion without the cache, with the fuel it needs. -/
def ancestorsBelow (hc : HeaderChain) (cp : Header) (headHash : Hash) : AncestorsResult :=
  hc.ancestorsWithin cp (rank headHash + 1) headHash

/-- `hc.CollectAncestorsAftCpByParents` over the database alone, without the cache. -/
def plainAncestorsAftCpByParents (hc : HeaderChain) (parents : List Hash) (cp : Header) :
    AncestorsResult :=
  Id.run (collectLoop (fun h => hc.ancestorsBelow rank cp h) parents .nothing)

/-- `hc.CollectAncestorsAftCpByParents` -/
def collectAncestorsAftCpByParents (hc : HeaderChain) (parents : List Hash) (cp : Header) :
    StateM AncestorCache AncestorsResult :=
  collectLoop (fun h => hc.cachedWithin cp (rank h + 1) h) parents .nothing

end

/-! ## The recursion, step by step -/

variable {hc hc' : HeaderChain} {cp : Header} {rank : Hash → ℕ} {n k : ℕ} {h p : Hash}
variable {header : Header} {Inv : AncestorCache → Prop}
  {below : Hash → StateM AncestorCache AncestorsResult} {below' f g : Hash → AncestorsResult}

/-- The results for the parents of a header, merged. -/
def mergeBelow (header : Header) (below : Hash → AncestorsResult) : AncestorsResult :=
  header.parentHashes.foldl (fun r ph => r.merge (below ph)) ⟨false, {header.hash}, [], none⟩

theorem mergeBelow_congr (hfg : ∀ p ∈ header.parentHashes, f p = g p) :
    mergeBelow header f = mergeBelow header g :=
  foldl_ext _ _ _ fun r p hp => by rw [hfg p hp]

/-- Merging keeps what every part has found, and no error or missing block arises. -/
theorem foldl_merge (l : List Hash) (f : Hash → AncestorsResult) (r : AncestorsResult) :
    let r' := l.foldl (fun r ph => r.merge (f ph)) r
    (∀ x, x ∈ r'.ancestors ↔ x ∈ r.ancestors ∨ ∃ p ∈ l, x ∈ (f p).ancestors) ∧
    (r'.isCpAncestor = true ↔ r.isCpAncestor = true ∨ ∃ p ∈ l, (f p).isCpAncestor = true) ∧
    (r.unloaded = [] → (∀ p ∈ l, (f p).unloaded = []) → r'.unloaded = []) ∧
    (r.err = none → (∀ p ∈ l, (f p).err = none) → r'.err = none) := by
  induction l generalizing r with
  | nil => simp
  | cons p l ih =>
    obtain ⟨hanc, hcp, hunl, herr⟩ := ih (r.merge (f p))
    refine ⟨fun x => ?_, ?_, fun h₁ h₂ => hunl ?_ fun q hq => h₂ q (by simp [hq]),
      fun _ h₂ => herr (h₂ p (by simp)) fun q hq => h₂ q (by simp [hq])⟩
    · rw [foldl_cons, hanc]
      simp [AncestorsResult.merge, or_assoc]
    · rw [foldl_cons, hcp]
      simp [AncestorsResult.merge, or_assoc]
    · simp [AncestorsResult.merge, h₁, h₂ p (by simp)]

/-- The recursion goes on at stored blocks only. -/
theorem getHeader_of_visit (hv : hc.visit cp h = .inr header) :
    hc.getHeader h = some header ∧ ¬ hc.Unfinalized cp := by
  unfold visit at hv
  split_ifs at hv with hcp
  cases hg : hc.getHeader h with
  | none => rw [hg] at hv; cases hv
  | some b =>
    rw [hg] at hv
    dsimp only at hv
    split_ifs at hv
    cases hv
    exact ⟨rfl, hcp⟩

theorem ancestorsWithin_succ : hc.ancestorsWithin cp (n + 1) h =
    (hc.visit cp h).elim id (mergeBelow · (hc.ancestorsWithin cp n)) := by
  show Id.run (hc.collectStep cp (fun ph => hc.ancestorsWithin cp n ph) h) = _
  unfold collectStep
  cases hc.visit cp h with
  | inl r => rfl
  | inr header => exact idRun_foldlM ..

theorem Ranked.rank_lt (hr : hc.Ranked rank) (hg : hc.getHeader h = some header)
    (hp : p ∈ header.parentHashes) : rank p < rank h := by
  obtain ⟨hm, rfl⟩ := getHeader_eq_some.1 hg
  exact hr header hm p hp

theorem Ranked.ancestorsWithin_eq (hr : hc.Ranked rank) (hn : rank h < n) (hk : rank h < k) :
    hc.ancestorsWithin cp n h = hc.ancestorsWithin cp k h := by
  induction n generalizing h k with
  | zero => omega
  | succ n ih =>
    obtain ⟨k, rfl⟩ : ∃ j, k = j + 1 := ⟨k - 1, by omega⟩
    rw [ancestorsWithin_succ, ancestorsWithin_succ]
    cases hv : hc.visit cp h with
    | inl r => rfl
    | inr header =>
      refine mergeBelow_congr fun p hp => ?_
      have hlt := hr.rank_lt (getHeader_of_visit hv).1 hp
      exact ih (by omega) (by omega)

/-- The recursion, one level at a time. -/
theorem Ranked.ancestorsBelow_eq (hr : hc.Ranked rank) : hc.ancestorsBelow rank cp h =
    (hc.visit cp h).elim id (mergeBelow · (hc.ancestorsBelow rank cp)) := by
  rw [ancestorsBelow, ancestorsWithin_succ]
  cases hv : hc.visit cp h with
  | inl r => rfl
  | inr header =>
    refine mergeBelow_congr fun p hp => ?_
    have hlt := hr.rank_lt (getHeader_of_visit hv).1 hp
    exact hr.ancestorsWithin_eq hlt (by omega)

/-! ## What the recursion depends on -/

/-- The recursions over `hc` and `hc'` do the same at the blocks of `S`, and do not leave `S`. -/
structure Agree (hc hc' : HeaderChain) (cp : Header) (S : Hash → Prop) : Prop where
  visit : ∀ x, S x → hc'.visit cp x = hc.visit cp x
  parents : ∀ x, S x → ∀ b, hc.getHeader x = some b → ∀ p ∈ b.parentHashes, S p

theorem Agree.ancestorsBelow_eq {S : Hash → Prop} (ha : Agree hc hc' cp S) (hS : S h) :
    hc'.ancestorsBelow rank cp h = hc.ancestorsBelow rank cp h := by
  unfold ancestorsBelow
  generalize rank h + 1 = n
  induction n generalizing h with
  | zero => rfl
  | succ n ih =>
    rw [ancestorsWithin_succ, ancestorsWithin_succ, ha.visit h hS]
    cases hv : hc.visit cp h with
    | inl r => rfl
    | inr header =>
      exact mergeBelow_congr fun p hp => ih (ha.parents h hS header (getHeader_of_visit hv).1 p hp)

theorem visit_congr (hcp : hc'.Unfinalized cp ↔ hc.Unfinalized cp)
    (hg : hc'.getHeader h = hc.getHeader h) (hgen : hc'.genesis = hc.genesis)
    (hcut : ∀ b, hc.getHeader h = some b → (hc'.FinalizedBefore cp b ↔ hc.FinalizedBefore cp b)) :
    hc'.visit cp h = hc.visit cp h := by
  unfold visit
  rw [hg, hgen]
  simp only [hcp]
  cases hb : hc.getHeader h with
  | none => rfl
  | some b => simp only [hcut b hb]

/-! ## The recursion with the cache -/

/-- A cached result is that of the recursion without the cache. -/
def Right (rank : Hash → ℕ) (hc : HeaderChain) (h : Hash) (e : CollectAncestorsResult) : Prop :=
  (hc.getHeader h).isSome ∧ ∃ cp, hc.getHeader e.cpHash = some cp ∧ ¬ hc.Unfinalized cp ∧
    e.toAncestorsResult = hc.ancestorsBelow rank cp h

theorem collectStep_transparent
    (hb : ∀ header, hc.visit cp h = .inr header → ∀ p ∈ header.parentHashes,
      Transparent Inv (below p) (below' p)) : Transparent Inv (hc.collectStep cp below h)
      ((hc.visit cp h).elim id (mergeBelow · below')) := by
  unfold collectStep
  cases hv : hc.visit cp h with
  | inl r => exact .pure r
  | inr header =>
    refine Transparent.foldlM (fun r p hp => ?_) _
    exact (hb header hv p hp).bind (.pure (r.merge (below' p)))

theorem collectLoop_transparent (hb : ∀ h, Transparent Inv (below h) (below' h)) (l : List Hash)
    (acc : AncestorsResult) :
    Transparent Inv (collectLoop below l acc) (Id.run (collectLoop (fun h => below' h) l acc)) := by
  induction l generalizing acc with
  | nil => exact .pure acc
  | cons h l ih =>
    refine (hb h).bind ?_
    show Transparent Inv _ (Id.run (if (below' h).err.isSome then _ else _))
    split_ifs
    · exact .pure _
    · exact ih _

/-- With a cache of right results, the recursion returns what it returns without the cache, and
    adds right results. -/
theorem Ranked.cachedWithin_transparent (hr : hc.Ranked rank) (hcl : hc.Complete)
    (hcp : cp ∈ hc.headers) (hn : rank h < n) :
    Transparent (Lru.All (Right rank hc)) (hc.cachedWithin cp n h)
      (hc.ancestorsBelow rank cp h) := by
  induction n generalizing h with
  | zero => omega
  | succ n ih =>
    rw [hr.ancestorsBelow_eq]
    refine collectStep_transparent fun header hv p hp => ?_
    obtain ⟨hg, hfin⟩ := getHeader_of_visit hv
    have hlt := hr.rank_lt hg hp
    have hmemo : Transparent (Lru.All (Right rank hc))
        (memoize ancestorCacheLimit (fun e : CollectAncestorsResult => e.cpHash = cp.hash) p
          (do return ⟨← hc.cachedWithin cp n p, cp.hash⟩))
        ⟨hc.ancestorsBelow rank cp p, cp.hash⟩ := by
      refine .memoize ((ih (by omega)).bind (.pure _))
        ⟨hcl header (getHeader_eq_some.1 hg).1 p hp, cp, getHeader_of_mem hcp, hfin, rfl⟩ ?_
      rintro ⟨r, c⟩ ⟨-, cp', hg', -, hr'⟩ hfit
      obtain rfl : c = cp.hash := by simpa using hfit
      obtain rfl : cp = cp' := Option.some.inj ((getHeader_of_mem hcp).symm.trans hg')
      cases hr'
      rfl
    exact hmemo.bind (.pure _)

theorem Ranked.collect_transparent (hr : hc.Ranked rank) (hcl : hc.Complete)
    (hcp : cp ∈ hc.headers) (parents : List Hash) :
    Transparent (Lru.All (Right rank hc)) (hc.collectAncestorsAftCpByParents rank parents cp)
      (hc.plainAncestorsAftCpByParents rank parents cp) :=
  collectLoop_transparent (fun _ => hr.cachedWithin_transparent hcl hcp (Nat.lt_succ_self _)) _ _

end HeaderChain

end Gwat
