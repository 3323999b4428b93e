/-
  WRC-721 tokens: what the operations do to owners, balances, approvals and prices.
-/
import Gwat.Token.Coins

namespace Gwat.Token

open GoLib ByteProg Function Processor MapKey

variable {op : CreateOp} {m m' m'' : Mem} {st : Storage} {p : Processor}

/-- What an operation of `caller` does to the tokens of a collection, with the transfers that
    it reports; `isOperator` are the accounts that approved the caller for all their tokens. -/
inductive Nfts.Step (caller : Address) (value : ℤ) (minter : Address)
    (isOperator : Address → Bool) : TokenOp → Nfts → List Transfer → Nfts → Prop where
  | transferFrom {std : Std} {dst : Address} {id : TokenId} {t : Nfts} : t.owner id ≠ 0 →
      (t.owner id = caller ∨ t.approved id = caller ∨ isOperator (t.owner id)) → dst ≠ 0 →
      1 ≤ t.balance (t.owner id) →
      Step caller value minter isOperator (.transferFrom std (t.owner id) dst id.toNat) t
        [⟨t.owner id, dst, id.toNat⟩]
        { t with owner := update t.owner id dst, approved := update t.approved id 0,
                 balance := move t.balance (t.owner id) dst 1 }
  | approve {std : Std} {spender : Address} {id : TokenId} {t : Nfts} : t.owner id ≠ 0 →
      (t.owner id = caller ∨ isOperator (t.owner id)) →
      Step caller value minter isOperator (.approve std spender id.toNat) t []
        { t with approved := update t.approved id spender }
  | mint {std : Std} {dst : Address} {id : TokenId} {metadata : Bytes} {t : Nfts} :
      caller = minter → t.owner id = 0 →
      Step caller value minter isOperator (.mint std dst id.toNat metadata) t [⟨0, dst, id.toNat⟩]
        { t with owner := update t.owner id dst,
                 balance := update t.balance dst (t.balance dst + 1) }
  | burn {std : Std} {id : TokenId} {t : Nfts} : caller = minter → t.owner id = caller →
      Step caller value minter isOperator (.burn std id.toNat) t [⟨caller, 0, id.toNat⟩]
        { t with balance := update t.balance caller (fromBig (t.balance caller - 1)).1 }
  | setPrice {id : TokenId} {n : ℕ} {t : Nfts} : t.owner id ≠ 0 → t.owner id = caller →
      Step caller value minter isOperator (.setPrice (some id.toNat) n) t []
        { t with price := update t.price id n }
  | buy {id : TokenId} {n : ℕ} {t : Nfts} : t.owner id ≠ 0 → t.price id ≠ 0 →
      (t.price id : ℤ) ≤ value → 1 ≤ t.balance (t.owner id) →
      Step caller value minter isOperator (.buy (some id.toNat) (some n)) t
        [⟨t.owner id, caller, 1⟩]
        { owner := update t.owner id caller, approved := update t.approved id 0,
          balance := move t.balance (t.owner id) caller 1, price := update t.price id n }
  | setApprovalForAll {std : Std} {operator : Address} {approved : Bool} {t : Nfts} :
      Step caller value minter isOperator (.setApprovalForAll std operator approved) t [] t
  | transfer {std : Std} {dst : Address} {v : ℤ} {t : Nfts} :
      Step caller value minter isOperator (.transfer std dst v) t [] t
  | query {t : Nfts} : Step caller value minter isOperator .query t [] t

@[simp] theorem TokenId.toNat_inj {id id' : TokenId} : id.toNat = id'.toNat ↔ id = id' := Fin.val_inj

theorem TokenId.toNat_lt (id : TokenId) : id.toNat < 2 ^ 256 := id.2.trans (by norm_num)

/-- What each operation on the token `id` needs and does. -/
theorem Nfts.Step.inv {caller minter : Address} {value : ℤ} {isOperator : Address → Bool}
    {o : TokenOp} {t t' : Nfts} {ts : List Transfer}
    (h : Nfts.Step caller value minter isOperator o t ts t') (id : TokenId) :
    (∀ std dst metadata, o = .mint std dst id.toNat metadata → t' =
      { t with owner := update t.owner id dst,
               balance := update t.balance dst (t.balance dst + 1) }) ∧
    (∀ std, o = .burn std id.toNat → t' =
      { t with balance := update t.balance caller (fromBig (t.balance caller - 1)).1 }) ∧
    (∀ std src dst, o = .transferFrom std src dst id.toNat → t' =
      { t with owner := update t.owner id dst, approved := update t.approved id 0,
               balance := move t.balance (t.owner id) dst 1 }) ∧
    (∀ n : ℕ, o = .setPrice (some (id.toNat : ℤ)) n → t' = { t with price := update t.price id n }) ∧
    ∀ newCost, o = .buy (some (id.toNat : ℤ)) newCost →
      t.price id ≠ 0 ∧ (t.price id : ℤ) ≤ value ∧ ts = [⟨t.owner id, caller, 1⟩] ∧
      ∃ n : ℕ, newCost = some (n : ℤ) ∧ t' =
        { owner := update t.owner id caller, approved := update t.approved id 0,
          balance := move t.balance (t.owner id) caller 1, price := update t.price id n } := by
  cases h <;> simp +contextual
  rintro rfl
  exact ⟨‹_›, ‹_›⟩

/-! ## Fields -/

/-- The two storages agree on the header and the fields. -/
def SameFields (m m' : Mem) : Prop := ∀ off n, off + n ≤ fieldsEnd → m'.read off n = m.read off n

theorem SameFields.refl (m : Mem) : SameFields m m := fun _ _ _ => rfl

theorem SameFields.trans (h : SameFields m m') (h' : SameFields m' m'') : SameFields m m'' :=
  fun off n hn => (h' off n hn).trans (h off n hn)

theorem sameFields_put (hp : p.NoCollision) (k : MapKey) (b : Bytes) :
    SameFields m (p.put m k b) := fun _ _ => read_put hp

theorem sameFields_moveBalance (hp : p.NoCollision) (src dst : Address) (v : ℕ) :
    SameFields m (p.moveBalance m src dst v) :=
  (sameFields_put hp _ _).trans (sameFields_put hp _ _)

theorem SameFields.laid (hs : SameFields m m') (h : Laid op m) : Laid op m' := by
  have hheader := headerSize_le op
  refine (hs _ _ ?_).trans h
  rw [List.length_append, length_headerBytes, stdMarshal, length_bytesBE]
  unfold fieldsEnd
  omega

theorem SameFields.read_field (hs : SameFields m m') (fd : FieldDescriptor)
    (hfd : fd ∈ descriptors op) (hne : fd.name ≠ standardField) :
    m'.read (fieldOffset op fd.name) fd.vp.fieldLength.toNat =
      m.read (fieldOffset op fd.name) fd.vp.fieldLength.toNat := by
  obtain ⟨info, hinfo, rfl⟩ := exists_info_of_mem hfd
  obtain ⟨-, -, hhi⟩ := fieldOffset_of_mem hinfo hne
  exact hs _ _ hhi

/-! ## Accesses -/

theorem exists_tokenId {n : ℕ} (h : (Rlp.beBytes n).length ≤ 20) : ∃ id : TokenId, id.toNat = n := by
  have hlt := natOfBytes_lt (Rlp.beBytes n)
  have hn : natOfBytes (Rlp.beBytes n) = n := Rlp.beNat_beBytes n
  have hle : 256 ^ (Rlp.beBytes n).length ≤ 256 ^ 20 := Nat.pow_le_pow_right (by norm_num) h
  rw [hn] at hlt
  exact ⟨⟨n, lt_of_lt_of_eq (hlt.trans_le hle) (by norm_num)⟩, rfl⟩

section
variable {baseURI : Bytes} {percentFee : UInt8} {β : Type} {id : TokenId} {n : ℕ}
  {owner caller : Address} (hkind : op.kind = .wrc721 baseURI percentFee) (hst : Fields op st)
include hkind

theorem standard_wrc721 : op.kind.standard = stdWRC721 := by rw [hkind]; rfl

theorem mem_descriptors_wrc721 {fd : FieldDescriptor}
    (h : fd ∈ kindDescriptors (.wrc721 baseURI percentFee)) : fd ∈ descriptors op :=
  List.mem_append_right _ (hkind ▸ h)

theorem SameFields.minterOf (hs : SameFields m m') : minterOf op m' = minterOf op m :=
  congrArg addressOfBytes (hs.read_field ⟨minterField, byteArray 20⟩
    (mem_descriptors_wrc721 hkind (by simp [kindDescriptors])) (by decide : minterField ≠ standardField))

theorem SameFields.percentFeeOf (hs : SameFields m m') : percentFeeOf op m' = percentFeeOf op m :=
  congrArg (List.headD · 0) (hs.read_field ⟨percentFeeField, .scalar uint8Type⟩
    (mem_descriptors_wrc721 hkind (by simp [kindDescriptors]))
    (by decide : percentFeeField ≠ standardField))

include hst

variable {f : Address → StorageProg β}

theorem readMinter_bind : (readAddress st minterField >>= f).run storageArray m =
      (f (Token.minterOf op m)).run storageArray m :=
  readAddress_bind hst (mem_descriptors_wrc721 hkind (by simp [kindDescriptors])) (by decide)

theorem readPercentFee_bind {f : UInt8 → StorageProg β} :
    (st.readField Encoding.decodeUint8 percentFeeField >>= f).run storageArray m =
      (f (Token.percentFeeOf op m)).run storageArray m :=
  readField_bind ⟨percentFeeField, .scalar uint8Type⟩ hst
    (mem_descriptors_wrc721 hkind (by simp [kindDescriptors]))
    (by decide : percentFeeField ≠ standardField) (fun _ _ => rfl) (by decide) rfl

theorem readOwner_bind :
    (p.readAddressFromMap st ownersField (.bytes (bigBytes id.toNat)) >>= f).run storageArray m =
      (f ((p.nfts m).owner id)).run storageArray m :=
  readAddressFromMap_bind (.owner id) hst (ofKind_wrc721 hkind nofun) rfl
    nofun

theorem readOwner_long (hn : ∀ id : TokenId, id.toNat ≠ n) :
    (p.readAddressFromMap st ownersField (.bytes (bigBytes n)) >>= f).run storageArray m =
      .error .badKeySize := by
  have hlong : 20 < (Rlp.beBytes n).length := by
    by_contra hle
    obtain ⟨id, hid⟩ := exists_tokenId (Nat.not_lt.1 hle)
    exact hn id hid
  have hof : (MapKey.owner ⟨0, by norm_num⟩).OfKind op.kind :=
    ofKind_wrc721 hkind nofun
  rw [readAddressFromMap, bind_assoc, run_bind]
  exact congrArg (· >>= _) (run_readFromMap_long (hst.lookup_map hof) rfl hlong)

theorem meets_readOwner_bind {C : Prop} {P : TokenId → Prop} {Q : β → Mem → Prop}
    (hC : C → ∃ id : TokenId, id.toNat = n ∧ P id) (hf : ∀ id : TokenId, id.toNat = n → (C → P id) →
      Meets C Q ((f ((p.nfts m).owner id)).run storageArray m)) :
    Meets C Q ((p.readAddressFromMap st ownersField (.bytes (bigBytes n)) >>= f).run storageArray
      m) := by
  by_cases hid : ∃ id : TokenId, id.toNat = n
  · obtain ⟨id, rfl⟩ := hid
    rw [readOwner_bind hkind hst]
    refine hf id rfl fun hc => ?_
    obtain ⟨id', hid', hP⟩ := hC hc
    rwa [← TokenId.toNat_inj.1 hid']
  · rw [readOwner_long hkind hst fun id hn => hid ⟨id, hn⟩]
    exact meets_error nofun fun hc => hid ((hC hc).imp fun _ h => h.1)

theorem readApproved_bind :
    (p.readAddressFromMap st tokenApprovalsField (.bytes (bigBytes id.toNat)) >>= f).run
      storageArray m = (f ((p.nfts m).approved id)).run storageArray m :=
  readAddressFromMap_bind (.tokenApproval id) hst
    (ofKind_wrc721 hkind nofun) rfl nofun

theorem readPrice_bind {f : ℕ → StorageProg β} :
    (p.readUint256 st costMapField (.uint256 id.toNat) >>= f).run storageArray m =
      (f ((p.nfts m).price id)).run storageArray m :=
  readUint256_bind (.cost id) hst (ofKind_wrc721 hkind nofun) rfl rfl nofun

theorem readOperator_bind {f : Bool → StorageProg β} :
    (p.readBool st operatorApprovalsField (p.pairKey owner caller) >>= f).run storageArray m =
      (f (p.isOperator m owner caller)).run storageArray m := by
  have hof : (operatorApproval (p.keccak256 (owner.bytes ++ caller.bytes))).OfKind op.kind :=
    ofKind_wrc721 hkind nofun
  rw [run_bind]
  exact congrArg (· >>= _) (run_readFromMap (hst.lookup_map hof) (valueSize_ne_zero nofun))

variable (hp : p.NoCollision)
include hp

variable {f : Unit → StorageProg β}

theorem writeOwner_bind {v : Value} (henc : Encoding.array.encode v = .ok owner.bytes) :
    (p.writeToMap st ownersField (.bytes (bigBytes id.toNat)) v >>= f).run storageArray m =
      (f ()).run storageArray (p.put m (.owner id) owner.bytes) :=
  putToMap_bind (.owner id) hp hst (ofKind_wrc721 hkind nofun) henc nofun
    owner.length_bytes.le

theorem writeNoOwner_bind :
    (p.writeToMap st ownersField (.bytes (bigBytes id.toNat)) (.bytes []) >>= f).run storageArray
      m = (f ()).run storageArray m := by
  have hput := putToMap_bind (f := f) (m := m) (v := .bytes []) (.owner id) hp hst
    (ofKind_wrc721 hkind nofun) rfl nofun (Nat.zero_le _)
  rwa [put_nil] at hput

theorem writeApproved_bind {a : Address} :
    (p.writeToMap st tokenApprovalsField (.bytes (bigBytes id.toNat)) (.address a) >>= f).run
      storageArray m = (f ()).run storageArray (p.put m (.tokenApproval id) a.bytes) :=
  putToMap_bind (.tokenApproval id) hp hst (ofKind_wrc721 hkind nofun) rfl
    nofun a.length_bytes.le

theorem writePrice_bind :
    (p.writeToMap st costMapField (.uint256 id.toNat) (.uint256 n) >>= f).run storageArray m =
      (f ()).run storageArray (p.put m (.cost id) (bytesBE 32 n)) :=
  putToMap_bind (.cost id) hp hst (ofKind_wrc721 hkind nofun) rfl nofun
    (length_bytesBE 32 n).le

theorem writeOperator_bind {approved : Bool} :
    (p.writeToMap st operatorApprovalsField (p.pairKey owner caller) (.bool approved) >>= f).run
      storageArray m = (f ()).run storageArray
        (p.put m (.operatorApproval (p.keccak256 (owner.bytes ++ caller.bytes)))
          [if approved then 1 else 0]) :=
  putToMap_bind (.operatorApproval _) hp hst (ofKind_wrc721 hkind nofun) rfl
    nofun le_rfl

theorem putMetadata_bind (id : TokenId) (metadata : Bytes)
    (hlen : metadata.length ≤ metadataMaxSize) : ∃ m₁, SameFields m m₁ ∧ p.nfts m₁ = p.nfts m ∧
      (p.writeToMap st metadataField (.bytes (bigBytes id.toNat)) (.bytes metadata) >>= f).run
        storageArray m = (f ()).run storageArray m₁ := by
  have hsize : ((MapKey.metadata id).byteMap.entryBytes metadata).length ≤
      (MapKey.metadata id).size := by
    change (uint64BytesBE _ ++ metadata).length ≤ 8 + metadataMaxSize
    rw [List.length_append, length_uint64BytesBE]
    omega
  have hwrite := run_writeToMap (m := m) (v := .bytes metadata) hp
    (hst.lookup_map (k := .metadata id) (ofKind_wrc721 hkind nofun)) rfl
    hsize
  refine ⟨_, sameFields_put hp _ _, nfts_put_of_beside hp (.inr ⟨id, rfl⟩) hsize, ?_⟩
  rw [run_bind]
  exact congrArg (· >>= _) hwrite

theorem run_writeMetadata {metadata : Bytes} :
    ∃ m₁, SameFields m m₁ ∧ p.nfts m₁ = p.nfts m ∧
      (p.writeMetadata st id.toNat metadata).run storageArray m =
        if metadataMaxSize < metadata.length then .error .metadataExceedsMaxSize
        else .ok ((), m₁) := by
  unfold writeMetadata
  by_cases hnil : metadata = []
  · refine ⟨m, .refl m, rfl, ?_⟩
    rw [if_pos hnil, if_neg (by rw [hnil]; exact Nat.not_lt.2 (Nat.zero_le _))]
    rfl
  · rw [if_neg hnil]
    by_cases hlen : metadataMaxSize < metadata.length
    · refine ⟨m, .refl m, rfl, ?_⟩
      rw [if_pos hlen, failIf_of hlen]
      rfl
    · obtain ⟨m₁, hsame, hnfts, hwrite⟩ := putMetadata_bind (f := pure) hkind hst hp id metadata
        (Nat.not_lt.1 hlen)
      refine ⟨m₁, hsame, hnfts, ?_⟩
      rw [if_neg hlen, run_check_bind_of_not hlen, ← bind_pure (p.writeToMap _ _ _ _)]
      exact hwrite

end

/-! ## The operations on a WRC-721 token -/

/-- The operation did to the tokens what `Nfts.Step` says, and left the fields alone. -/
def NftStep (p : Processor) (op : CreateOp) (caller : Address) (value : ℤ) (o : TokenOp)
    (ts : List Transfer) (m m' : Mem) : Prop :=
  SameFields m m' ∧ Nfts.Step caller value (minterOf op m) (p.isOperator m · caller) o (p.nfts m) ts
    (p.nfts m')

section
variable {baseURI : Bytes} {percentFee : UInt8} (value : ℤ) {caller src dst spender : Address}
  {std : Std} {n : ℕ} (hp : p.NoCollision) (h : Laid op m)
  (hkind : op.kind = .wrc721 baseURI percentFee)
include h hkind

theorem transferStorage_wrc721 {v : ℤ} :
    Ends (fun _ m' => std = stdWRC721 ∧ m' = m)
      ((p.transferStorage caller std dst v).run storageArray m) := by
  refine Meets.ends (C := False) (meets_newStorage_bind h False.elim fun st _ hstd => ?_)
  rw [hstd, standard_wrc721 hkind, if_neg (by decide)]
  exact meets_ok ⟨rfl, rfl⟩

include hp

theorem transferFromStorage_wrc721 :
    Meets (std = op.kind.standard ∧ src = caller ∧ caller ≠ 0 ∧ dst ≠ 0 ∧ 1 ≤ p.balanceOf m src ∧
        p.balanceOf m dst + 1 < 2 ^ 256 ∧ ∃ id : TokenId, id.toNat = n ∧ (p.nfts m).owner id = src)
      (fun _ m' => std = stdWRC721 ∧ n < 2 ^ 256 ∧
        NftStep p op caller value (.transferFrom std src dst n) [⟨src, dst, n⟩] m m')
      ((p.transferFromStorage caller std src dst n).run storageArray m) := by
  refine meets_newStorage_bind h And.left fun st hst hstd => ?_
  rw [hstd, standard_wrc721 hkind, if_neg (by decide), if_pos rfl, wrc721TransferFrom]
  refine meets_readOwner_bind hkind hst (·.2.2.2.2.2.2) fun id hid howner => ?_
  subst hid
  refine meets_check_bind nofun (fun hc => by rw [howner hc, hc.2.1]; exact hc.2.2.1)
    fun hminted => ?_
  rw [readApproved_bind hkind hst, readOperator_bind hkind hst]
  refine meets_check_bind nofun (fun hc hno => hno.1 ((howner hc).trans hc.2.1)) fun hcaller => ?_
  refine meets_check_bind nofun (·.2.2.2.1) fun hdst => ?_
  refine meets_check_bind nofun (fun hc => not_not.2 (howner hc).symm) fun hsrc => ?_
  obtain rfl := not_not.1 hsrc
  have hbal := congrArg Nfts.balance (@nfts_put_approved m p hp 0 id)
  rw [writeApproved_bind hkind hst hp]
  refine meets_run_bind (meets_transferBalance (v := 1) hp hst fun hc => ?_) ?_
  · exact ⟨hc.2.2.2.2.1.trans_eq (congrFun hbal _).symm,
      lt_of_eq_of_lt (congrArg (· + 1) (congrFun hbal dst)) hc.2.2.2.2.2.1⟩
  rintro _ _ ⟨hle, hlt, rfl⟩
  rw [← bind_pure (p.writeToMap _ _ _ _), writeOwner_bind hkind hst hp rfl]
  refine meets_ok ⟨rfl, id.toNat_lt, ?_, ?_⟩
  · exact ((sameFields_put hp _ _).trans (sameFields_moveBalance hp _ _ _)).trans
      (sameFields_put hp _ _)
  · rw [nfts_put_owner hp, nfts_moveBalance hp hlt, nfts_put_approved hp]
    exact .transferFrom hminted (by simpa only [not_and_or, not_not] using hcaller) hdst
      (hle.trans_eq (congrFun hbal _))

theorem approveStorage_wrc721 :
    Ends (fun _ m' => std = stdWRC721 ∧ n < 2 ^ 256 ∧
        NftStep p op caller value (.approve std spender n) [] m m')
      ((p.approveStorage caller std spender n).run storageArray m) := by
  refine Meets.ends (C := False) (meets_newStorage_bind h False.elim fun st hst hstd => ?_)
  rw [hstd, standard_wrc721 hkind, if_neg (by decide), if_pos rfl, wrc721Approve]
  refine meets_readOwner_bind (P := fun _ => True) hkind hst False.elim fun id hid _ => ?_
  subst hid
  refine meets_check_bind nofun False.elim fun hminted => ?_
  rw [readOperator_bind hkind hst]
  refine meets_check_bind nofun False.elim fun hcaller => ?_
  rw [← bind_pure (p.writeToMap _ _ _ _), writeApproved_bind hkind hst hp]
  refine meets_ok ⟨rfl, id.toNat_lt, sameFields_put hp _ _, ?_⟩
  rw [nfts_put_approved hp]
  exact .approve hminted (by simpa only [not_and_or, not_not] using hcaller)

theorem setApprovalForAllStorage_wrc721 {approved : Bool} :
    Ends (fun _ m' => std = stdWRC721 ∧ SameFields m m' ∧ p.nfts m' = p.nfts m)
      ((p.setApprovalForAllStorage caller std dst approved).run storageArray m) := by
  refine Meets.ends (C := False) (meets_newStorage_bind h False.elim fun st hst hstd => ?_)
  rw [← bind_pure (p.writeToMap _ _ _ _), writeOperator_bind hkind hst hp]
  exact meets_ok ⟨hstd.trans (standard_wrc721 hkind), sameFields_put hp _ _,
    nfts_put_of_beside hp (.inl trivial) le_rfl⟩

theorem mintStorage_wrc721 {metadata : Bytes} :
    Meets (std = op.kind.standard ∧ minterOf op m = caller ∧ metadata = [] ∧
        p.balanceOf m dst + 1 < 2 ^ 256 ∧ ∃ id : TokenId, id.toNat = n ∧ (p.nfts m).owner id = 0)
      (fun _ m' => std = stdWRC721 ∧ n < 2 ^ 256 ∧
        NftStep p op caller value (.mint std dst n metadata) [⟨0, dst, n⟩] m m')
      ((p.mintStorage caller std dst n metadata).run storageArray m) := by
  refine meets_newStorage_bind h And.left fun st hst hstd => ?_
  rw [readMinter_bind hkind hst]
  refine meets_check_bind nofun (fun hc => not_not.2 hc.2.1.symm) fun hminter => ?_
  refine meets_readOwner_bind hkind hst (·.2.2.2.2) fun id hid howner => ?_
  subst hid
  refine meets_check_bind nofun (fun hc => not_not.2 (howner hc)) fun hfree => ?_
  rw [readBalance_bind hst, ← Nat.cast_add_one]
  refine meets_fromBigChecked_bind (·.2.2.2.1) fun hlt => ?_
  obtain ⟨m₁, hsame, hnfts, hwrite⟩ := run_writeMetadata hkind hst hp
  rw [writeBalance_bind hp hst, writeOwner_bind hkind hst hp rfl, hwrite]
  split_ifs with hlen
  · exact meets_error nofun fun hc => by simp [hc.2.2.1] at hlen
  · refine meets_ok ⟨hstd.trans (standard_wrc721 hkind), id.toNat_lt, ?_, ?_⟩
    · exact ((sameFields_put hp _ _).trans (sameFields_put hp _ _)).trans hsame
    · rw [hnfts, nfts_put_owner hp, nfts_put_balance hp hlt]
      exact .mint (not_not.1 hminter) (not_not.1 hfree)

theorem burnStorage_wrc721 :
    Meets (std = op.kind.standard ∧ minterOf op m = caller ∧ 1 ≤ p.balanceOf m caller ∧
        ∃ id : TokenId, id.toNat = n ∧ (p.nfts m).owner id = caller)
      (fun owner m' => std = stdWRC721 ∧ n < 2 ^ 256 ∧ owner = caller ∧
        NftStep p op caller value (.burn std n) [⟨caller, 0, n⟩] m m')
      ((p.burnStorage caller std n).run storageArray m) := by
  refine meets_newStorage_bind h And.left fun st hst hstd => ?_
  rw [readMinter_bind hkind hst]
  refine meets_check_bind nofun (fun hc => not_not.2 hc.2.1.symm) fun hminter => ?_
  refine meets_readOwner_bind hkind hst (·.2.2.2) fun id hid howned => ?_
  subst hid
  refine meets_check_bind nofun (fun hc => not_not.2 (howned hc)) fun howner => ?_
  have howner := not_not.1 howner
  rw [howner, readBalance_bind hst]
  refine meets_ofExcept_bind (avoids_fromBigChecked _) (fun hc => ?_) fun new hnew => ?_
  · have hpos := hc.2.2.1
    have hlt := p.balanceOf_lt m caller
    rw [← Nat.cast_pred hpos, fromBigChecked_natCast, if_neg (by omega)]
    exact ⟨_, rfl⟩
  obtain ⟨rfl, hlt⟩ := eq_fromBig_of_checked hnew
  obtain ⟨m₁, hsame, hnfts, hwrite⟩ := putMetadata_bind hkind hst hp id [] (Nat.zero_le _)
  rw [writeBalance_bind hp hst, writeNoOwner_bind hkind hst hp, hwrite]
  refine meets_ok ⟨hstd.trans (standard_wrc721 hkind), id.toNat_lt, rfl,
    (sameFields_put hp _ _).trans hsame, ?_⟩
  rw [hnfts, nfts_put_balance hp hlt]
  exact .burn (not_not.1 hminter) howner

theorem setPriceStorage_wrc721 {tokenId : Option ℤ} (hid : ∀ t ∈ tokenId, 0 ≤ t) :
    Meets (caller ≠ 0 ∧ n < 2 ^ 256 ∧
        ∃ id : TokenId, tokenId = some (id.toNat : ℤ) ∧ (p.nfts m).owner id = caller)
      (fun _ m' => NftStep p op caller value (.setPrice tokenId n) [] m m')
      ((p.setPriceStorage caller tokenId n).run storageArray m) := by
  refine meets_newStorageWithoutStdCheck_bind h fun st hst => ?_
  refine meets_fromBigChecked_bind (·.2.1) fun hlt => ?_
  rw [standard_wrc721 hkind, if_neg (by decide), if_pos rfl]
  cases tokenId with
  | none => exact meets_error nofun fun hc => nomatch hc.2.2
  | some t =>
    lift t to ℕ using hid t rfl
    refine meets_readOwner_bind hkind hst (fun hc => hc.2.2.imp fun _ h =>
      ⟨(Int.ofNat_inj.1 (Option.some.inj h.1)).symm, h.2⟩) fun id hid howned => ?_
    subst hid
    refine meets_check_bind nofun (fun hc => by rw [howned hc]; exact hc.1) fun hminted => ?_
    refine meets_check_bind nofun (fun hc => not_not.2 (howned hc)) fun howner => ?_
    refine meets_fromBigChecked_bind (fun _ => id.toNat_lt) fun _ => ?_
    rw [← bind_pure (p.writeToMap _ _ _ _), writePrice_bind hkind hst hp]
    refine meets_ok ⟨sameFields_put hp _ _, ?_⟩
    rw [nfts_put_price hp hlt]
    exact .setPrice hminted (not_not.1 howner)

/-- A purchase is of the token, from its owner, at its recorded price. -/
theorem buyStorage_wrc721 {tokenId newCost : Option ℤ}
    (hid : ∀ t ∈ tokenId, 0 ≤ t) (hcost : ∀ c ∈ newCost, 0 ≤ c) :
    Meets (p.balanceOf m caller + 1 < 2 ^ 256 ∧ (∃ c : ℕ, newCost = some (c : ℤ) ∧ c < 2 ^ 256) ∧
        ∃ id : TokenId, tokenId = some (id.toNat : ℤ) ∧ (p.nfts m).owner id ≠ 0 ∧
          1 ≤ p.balanceOf m ((p.nfts m).owner id) ∧ (p.nfts m).price id ≠ 0 ∧
          ((p.nfts m).price id : ℤ) ≤ value)
      (fun r m' => Fields op r.1 ∧ ∃ id : TokenId, tokenId = some (id.toNat : ℤ) ∧
        r.2 = ⟨stdWRC721, (p.nfts m).owner id, 1, (p.nfts m).price id, percentFeeOf op m⟩ ∧
        NftStep p op caller value (.buy tokenId newCost) [⟨(p.nfts m).owner id, caller, 1⟩] m m')
      ((p.buyStorage caller value tokenId newCost).run storageArray m) := by
  refine meets_newStorageWithoutStdCheck_bind h fun st hst => ?_
  change Meets _ _ ((p.purchase st op.kind.standard caller value tokenId newCost >>= _).run
    storageArray m)
  rw [purchase, standard_wrc721 hkind, if_neg (by decide), if_pos rfl,
    buyWrc721]
  simp only [bind_assoc]
  cases tokenId with
  | none => exact meets_error (by simp) fun hc => by simpa using hc.2.2
  | some t =>
    lift t to ℕ using hid t rfl
    refine meets_fromBigChecked_bind (fun hc => ?_) fun _ => ?_
    · obtain ⟨id, hid, -⟩ := hc.2.2
      exact Int.ofNat_inj.1 (Option.some.inj hid) ▸ id.toNat_lt
    cases newCost with
    | none => exact meets_error (by simp) fun hc => by simpa using hc.2.1
    | some c =>
      lift c to ℕ using hcost c rfl
      refine meets_readOwner_bind hkind hst (fun hc => hc.2.2.imp fun _ h =>
        ⟨(Int.ofNat_inj.1 (Option.some.inj h.1)).symm, h.2⟩) fun id hid hsold => ?_
      subst hid
      refine meets_check_bind (by simp) (fun hc => (hsold hc).1) fun hminted => ?_
      rw [readPrice_bind hkind hst]
      refine meets_check_bind (by simp) (fun hc => (hsold hc).2.2.1) fun hsale => ?_
      refine meets_check_bind (by simp) (fun hc => Int.not_lt.2 (hsold hc).2.2.2) fun hvalue => ?_
      rw [writeOwner_bind hkind hst hp rfl, writeApproved_bind hkind hst hp]
      refine meets_fromBigChecked_bind (fun hc => ?_) fun hc => ?_
      · obtain ⟨c', hc', hlt⟩ := hc.2.1
        exact Int.ofNat_inj.1 (Option.some.inj hc') ▸ hlt
      rw [writePrice_bind hkind hst hp, readPercentFee_bind hkind hst, pure_bind]
      have hsame : SameFields m (p.put (p.put (p.put m (.owner id) caller.bytes) (.tokenApproval id)
          (Address.bytes 0)) (.cost id) (bytesBE 32 c)) :=
        ((sameFields_put hp _ _).trans (sameFields_put hp _ _)).trans (sameFields_put hp _ _)
      have hnfts : p.nfts (p.put (p.put (p.put m (.owner id) caller.bytes) (.tokenApproval id)
          (Address.bytes 0)) (.cost id) (bytesBE 32 c)) =
          { owner := update (p.nfts m).owner id caller, approved := update (p.nfts m).approved id 0,
            balance := (p.nfts m).balance, price := update (p.nfts m).price id c } := by
        rw [nfts_put_price hp hc, nfts_put_approved hp, nfts_put_owner hp]
      have hbal := congrArg Nfts.balance hnfts
      refine meets_run_bind (meets_transferBalance (v := 1) hp hst fun hc => ?_) ?_
      · exact ⟨(hsold hc).2.1.trans_eq (congrFun hbal _).symm,
          lt_of_eq_of_lt (congrArg (· + 1) (congrFun hbal caller)) hc.1⟩
      rintro _ _ ⟨hle, hlt, rfl⟩
      rw [hsame.percentFeeOf hkind]
      refine meets_ok ⟨hst, id, rfl, rfl, hsame.trans (sameFields_moveBalance hp _ _ _), ?_⟩
      rw [nfts_moveBalance hp hlt, hnfts]
      exact .buy hminted hsale (by omega) (hle.trans_eq (congrFun hbal _))

end

end Gwat.Token
