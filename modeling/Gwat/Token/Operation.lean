/-
  The binary format of token operations (`token/operation`).

  A creation has a data structure of its own; all other operations share one, `opData`, with a
  field for everything any of them has.  An operation fills the fields it has and leaves the
  others zero, and takes them out again after a check.  RLP writes a missing number and zero
  alike.
-/
import Gwat.Token.Processor

namespace Gwat.Token

open GoLib GoLib.Rlp

/-! ## Operations -/

/-- The errors of the package; `rlp` stands for those of the RLP decoder, `negativeBigInt` is
    the one of its encoder. -/
inductive OpError where
  | noTokenSupply
  | noName
  | noSymbol
  | noBaseURI
  | noAddress
  | noOwner
  | noValue
  | negativeCost
  | noTo
  | noFrom
  | noSpender
  | noOperator
  | noTokenId
  | noIndex
  | standardNotValid
  | prefixNotValid
  | rawDataShort
  | opNotValid
  | rlp
  | negativeBigInt
  deriving DecidableEq, Repr

/-- The operations with their fields.  Numbers that may be missing are optional; missing
    metadata and data are empty. -/
inductive Operation where
  | create (std : Std) (name symbol : Bytes) (decimals : UInt8) (totalSupply : Option ℤ)
      (baseURI : Option Bytes) (percentFee : UInt8)
  | approve (std : Std) (value : ℤ) (spender : Address)
  | transfer (std : Std) (value : ℤ) (toAddr : Address)
  | transferFrom (std : Std) (value : ℤ) (toAddr fromAddr : Address)
  | properties (address : Address) (id : Option ℤ)
  | balanceOf (address owner : Address)
  | allowance (std : Std) (address owner spender : Address)
  | isApprovedForAll (std : Std) (address owner operator : Address)
  | setApprovalForAll (std : Std) (operator : Address) (approved : Bool)
  | mint (std : Std) (toAddr : Address) (id : ℤ) (metadata : Bytes)
  | burn (std : Std) (id : ℤ)
  | tokenOfOwnerByIndex (std : Std) (address owner : Address) (index : Option ℤ)
  | safeTransferFrom (std : Std) (value : ℤ) (toAddr fromAddr : Address) (data : Bytes)
  | setPrice (value : ℤ) (id : Option ℤ)
  | buy (id newCost : Option ℤ)
  | cost (address : Address) (id : Option ℤ)
  deriving DecidableEq, Repr

def defaultDecimals : UInt8 := 18

/-! ## Constructors -/

/-- `createOperation.init` -/
def createInit (std : Std) (name symbol : Bytes) (decimals percentFee : Option UInt8)
    (totalSupply : Option ℤ) (baseURI : Bytes) : Except OpError Operation := do
  failIf (name = []) .noName
  failIf (symbol = []) .noSymbol
  if std = stdWRC20 then do
    failIf (totalSupply = none) .noTokenSupply
    return .create std name symbol (decimals.getD defaultDecimals) totalSupply none 0
  else if std = stdWRC721 then do
    failIf (baseURI = []) .noBaseURI
    return .create std name symbol 0 none (some baseURI) (percentFee.getD 0)
  else .error .standardNotValid

def newWrc20CreateOperation (name symbol : Bytes) (decimals : Option UInt8)
    (totalSupply : Option ℤ) : Except OpError Operation :=
  createInit stdWRC20 name symbol decimals none totalSupply []

def newWrc721CreateOperation (name symbol baseURI : Bytes) (percentFee : Option UInt8) :
    Except OpError Operation :=
  createInit stdWRC721 name symbol none percentFee none baseURI

/-- A required number. -/
def needInt (x : Option ℤ) (e : OpError) : Except OpError ℤ :=
  match x with
  | none => .error e
  | some n => .ok n

def newApproveOperation (standard : Std) (spender : Address) (value : Option ℤ) :
    Except OpError Operation := do
  failIf (spender = 0) .noSpender
  let v ← needInt value .noValue
  return .approve standard v spender

/-- `newTransferOperation`: the value of a transfer. -/
def newTransferOperationWith (toAddr : Address) (value : Option ℤ) : Except OpError ℤ := do
  failIf (toAddr = 0) .noTo
  needInt value .noValue

def newTransferOperation (toAddr : Address) (value : Option ℤ) : Except OpError Operation := do
  let v ← newTransferOperationWith toAddr value
  return .transfer stdWRC20 v toAddr

def newTransferFromOperation (standard : Std) (fromAddr toAddr : Address) (value : Option ℤ) :
    Except OpError Operation := do
  failIf (fromAddr = 0) .noFrom
  let v ← newTransferOperationWith toAddr value
  return .transferFrom standard v toAddr fromAddr

def newSafeTransferFromOperation (fromAddr toAddr : Address) (value : Option ℤ) (data : Bytes) :
    Except OpError Operation := do
  failIf (fromAddr = 0) .noFrom
  let v ← newTransferOperationWith toAddr value
  return .safeTransferFrom stdWRC721 v toAddr fromAddr data

def newPropertiesOperation (address : Address) (tokenId : Option ℤ) :
    Except OpError Operation := do
  failIf (address = 0) .noAddress
  return .properties address tokenId

def newBalanceOfOperation (address owner : Address) : Except OpError Operation := do
  failIf (address = 0) .noAddress
  failIf (owner = 0) .noOwner
  return .balanceOf address owner

def newAllowanceOperation (address owner spender : Address) : Except OpError Operation := do
  failIf (address = 0) .noAddress
  failIf (spender = 0) .noSpender
  failIf (owner = 0) .noOwner
  return .allowance stdWRC20 address owner spender

def newIsApprovedForAllOperation (address owner operator : Address) :
    Except OpError Operation := do
  failIf (address = 0) .noAddress
  failIf (owner = 0) .noOwner
  failIf (operator = 0) .noOperator
  return .isApprovedForAll stdWRC721 address owner operator

def newSetApprovalForAllOperation (operator : Address) (isApproved : Bool) :
    Except OpError Operation := do
  failIf (operator = 0) .noOperator
  return .setApprovalForAll stdWRC721 operator isApproved

def newMintOperation (toAddr : Address) (tokenId : Option ℤ) (metadata : Bytes) :
    Except OpError Operation := do
  failIf (toAddr = 0) .noTo
  let id ← needInt tokenId .noTokenId
  return .mint stdWRC721 toAddr id metadata

def newBurnOperation (tokenId : Option ℤ) : Except OpError Operation := do
  let id ← needInt tokenId .noTokenId
  return .burn stdWRC721 id

def newTokenOfOwnerByIndexOperation (address owner : Address) (index : Option ℤ) :
    Except OpError Operation := do
  failIf (address = 0) .noAddress
  failIf (owner = 0) .noOwner
  failIf (index = none) .noIndex
  return .tokenOfOwnerByIndex stdWRC721 address owner index

def newSetPriceOperation (tokenId value : Option ℤ) : Except OpError Operation := do
  let v ← needInt value .noValue
  failIf (v < 0) .negativeCost
  return .setPrice v tokenId

def newBuyOperation (tokenId newCost : Option ℤ) : Except OpError Operation := do
  failIf (∃ n ∈ newCost, n < 0) .negativeCost
  return .buy tokenId newCost

def newCostOperation (address : Address) (tokenId : Option ℤ) : Except OpError Operation := do
  failIf (address = 0) .noAddress
  return .cost address tokenId

/-- The operations that a constructor accepts. -/
inductive Constructed : Operation → Prop
  | wrc20Create {name symbol decimals totalSupply op} :
      newWrc20CreateOperation name symbol decimals totalSupply = .ok op → Constructed op
  | wrc721Create {name symbol baseURI percentFee op} :
      newWrc721CreateOperation name symbol baseURI percentFee = .ok op → Constructed op
  | approve {standard spender value op} :
      newApproveOperation standard spender value = .ok op → Constructed op
  | transfer {toAddr value op} : newTransferOperation toAddr value = .ok op → Constructed op
  | transferFrom {standard fromAddr toAddr value op} :
      newTransferFromOperation standard fromAddr toAddr value = .ok op → Constructed op
  | safeTransferFrom {fromAddr toAddr value data op} :
      newSafeTransferFromOperation fromAddr toAddr value data = .ok op → Constructed op
  | properties {address tokenId op} :
      newPropertiesOperation address tokenId = .ok op → Constructed op
  | balanceOf {address owner op} : newBalanceOfOperation address owner = .ok op → Constructed op
  | allowance {address owner spender op} :
      newAllowanceOperation address owner spender = .ok op → Constructed op
  | isApprovedForAll {address owner operator op} :
      newIsApprovedForAllOperation address owner operator = .ok op → Constructed op
  | setApprovalForAll {operator isApproved op} :
      newSetApprovalForAllOperation operator isApproved = .ok op → Constructed op
  | mint {toAddr tokenId metadata op} :
      newMintOperation toAddr tokenId metadata = .ok op → Constructed op
  | burn {tokenId op} : newBurnOperation tokenId = .ok op → Constructed op
  | tokenOfOwnerByIndex {address owner index op} :
      newTokenOfOwnerByIndexOperation address owner index = .ok op → Constructed op
  | setPrice {tokenId value op} : newSetPriceOperation tokenId value = .ok op → Constructed op
  | buy {tokenId newCost op} : newBuyOperation tokenId newCost = .ok op → Constructed op
  | cost {address tokenId op} : newCostOperation address tokenId = .ok op → Constructed op

/-- What the constructors see to. -/
def Operation.WellFormed : Operation → Prop
  | create std name symbol decimals totalSupply baseURI percentFee =>
    name ≠ [] ∧ symbol ≠ [] ∧
      (std = stdWRC20 ∧ totalSupply ≠ none ∧ baseURI = none ∧ percentFee = 0 ∨
        std = stdWRC721 ∧ decimals = 0 ∧ totalSupply = none ∧ ∃ uri, uri ≠ [] ∧ baseURI = some uri)
  | approve _ _ spender => spender ≠ 0
  | transfer std _ toAddr => std = stdWRC20 ∧ toAddr ≠ 0
  | transferFrom _ _ toAddr fromAddr => toAddr ≠ 0 ∧ fromAddr ≠ 0
  | safeTransferFrom std _ toAddr fromAddr _ => std = stdWRC721 ∧ toAddr ≠ 0 ∧ fromAddr ≠ 0
  | properties address _ => address ≠ 0
  | balanceOf address owner => address ≠ 0 ∧ owner ≠ 0
  | allowance std address owner spender =>
    std = stdWRC20 ∧ address ≠ 0 ∧ owner ≠ 0 ∧ spender ≠ 0
  | isApprovedForAll std address owner operator =>
    std = stdWRC721 ∧ address ≠ 0 ∧ owner ≠ 0 ∧ operator ≠ 0
  | setApprovalForAll std operator _ => std = stdWRC721 ∧ operator ≠ 0
  | mint std toAddr _ _ => std = stdWRC721 ∧ toAddr ≠ 0
  | burn std _ => std = stdWRC721
  | tokenOfOwnerByIndex std address owner _ => std = stdWRC721 ∧ address ≠ 0 ∧ owner ≠ 0
  | setPrice value _ => 0 ≤ value
  | buy _ newCost => ∀ n ∈ newCost, 0 ≤ n
  | cost address _ => address ≠ 0

theorem createInit_wellFormed {std : Std} {name symbol baseURI : Bytes}
    {decimals percentFee : Option UInt8} {totalSupply : Option ℤ} {op : Operation}
    (h : createInit std name symbol decimals percentFee totalSupply baseURI = .ok op) :
    op.WellFormed := by
  obtain ⟨_, hname, h⟩ := bind_eq_ok.1 h
  obtain ⟨_, hsymbol, h⟩ := bind_eq_ok.1 h
  split_ifs at h with h20 h721
  · obtain ⟨_, hsupply, h⟩ := bind_eq_ok.1 h
    cases h
    exact ⟨failIf_eq_ok.1 hname, failIf_eq_ok.1 hsymbol,
      .inl ⟨h20, failIf_eq_ok.1 hsupply, rfl, rfl⟩⟩
  · obtain ⟨_, huri, h⟩ := bind_eq_ok.1 h
    cases h
    exact ⟨failIf_eq_ok.1 hname, failIf_eq_ok.1 hsymbol,
      .inr ⟨h721, rfl, rfl, baseURI, failIf_eq_ok.1 huri, rfl⟩⟩

theorem Constructed.wellFormed {op : Operation} (h : Constructed op) : op.WellFormed := by
  cases h with
  | wrc20Create h => exact createInit_wellFormed h
  | wrc721Create h => exact createInit_wellFormed h
  | _ h =>
    -- what passed the checks of the constructor
    simp only [newApproveOperation, newTransferOperationWith, newTransferOperation,
      newTransferFromOperation, newSafeTransferFromOperation, newPropertiesOperation,
      newBalanceOfOperation, newAllowanceOperation, newIsApprovedForAllOperation,
      newSetApprovalForAllOperation, newMintOperation, newBurnOperation,
      newTokenOfOwnerByIndexOperation, newSetPriceOperation, newBuyOperation, newCostOperation,
      bind_eq_ok, failIf_eq_ok, pure_eq_ok, Except.ok.injEq] at h
    grind [Operation.WellFormed]

/-! ## Codes -/

inductive Code where
  | create
  | approve
  | transfer
  | transferFrom
  | properties
  | balanceOf
  | allowance
  | isApprovedForAll
  | setApprovalForAll
  | mint
  | burn
  | tokenOfOwnerByIndex
  | safeTransferFrom
  | setPrice
  | buy
  | cost
  deriving DecidableEq, Repr

namespace Code

def byte : Code → UInt8
  | create => 0x0C
  | approve => 0x0D
  | transfer => 0x1E
  | transferFrom => 0x1F
  | properties => 0x21
  | balanceOf => 0x22
  | allowance => 0x23
  | isApprovedForAll => 0x24
  | setApprovalForAll => 0x25
  | mint => 0x26
  | burn => 0x27
  | tokenOfOwnerByIndex => 0x28
  | safeTransferFrom => 0x29
  | setPrice => 0x2a
  | buy => 0x2b
  | cost => 0x2c

/-- The cases of `DecodeBytes`. -/
def all : List Code :=
  [create, approve, transfer, transferFrom, properties, balanceOf, allowance, isApprovedForAll,
    setApprovalForAll, mint, burn, tokenOfOwnerByIndex, safeTransferFrom, setPrice, buy, cost]

def ofByte? (b : UInt8) : Option Code := all.find? fun c => c.byte = b

@[simp] theorem ofByte?_byte (c : Code) : ofByte? c.byte = some c := by cases c <;> rfl

end Code

/-- `Prefix` -/
def opPrefix : UInt8 := 0xF3

def Operation.opCode : Operation → Code
  | create .. => .create
  | approve .. => .approve
  | transfer .. => .transfer
  | transferFrom .. => .transferFrom
  | properties .. => .properties
  | balanceOf .. => .balanceOf
  | allowance .. => .allowance
  | isApprovedForAll .. => .isApprovedForAll
  | setApprovalForAll .. => .setApprovalForAll
  | mint .. => .mint
  | burn .. => .burn
  | tokenOfOwnerByIndex .. => .tokenOfOwnerByIndex
  | safeTransferFrom .. => .safeTransferFrom
  | setPrice .. => .setPrice
  | buy .. => .buy
  | cost .. => .cost

/-! ## Values in RLP -/

/-- `writeBigIntPtr` -/
def bigItem : Option ℤ → Except OpError Item
  | none => .ok (.str [])
  | some n => if n < 0 then .error .negativeBigInt else .ok (.ofNat n.toNat)

/-- `decodeBigInt`; the pointer is set in any case, also where the field has the tag `nil`. -/
def toBig? (x : Item) : Option (Option ℤ) := x.toNat?.map fun n => some (n : ℤ)

/-- `writeBool` -/
def boolItem (b : Bool) : Item := .str (if b then [1] else [])

/-- `decodeBool` -/
def toBool? (x : Item) : Option Bool :=
  match x.toUint? 1 with
  | some 0 => some false
  | some 1 => some true
  | _ => none

def uint8Item (n : UInt8) : Item := .ofNat n.toNat
def toUint8? (x : Item) : Option UInt8 := (x.toUint? 1).map UInt8.ofNat

/-- A `*uint8` with the tag `nil`: an empty string is no number. -/
def toUint8OrNil? : Item → Option (Option UInt8)
  | .str [] => some none
  | .list [] => none
  | x => (toUint8? x).map some

def stdItem (std : Std) : Item := .ofNat std.toNat
def toStd? (x : Item) : Option Std := (x.toUint? 2).map UInt16.ofNat

@[simp] theorem toBool?_boolItem (b : Bool) : toBool? (boolItem b) = some b := by
  cases b <;> rfl

@[simp] theorem toUint8?_uint8Item (n : UInt8) : toUint8? (uint8Item n) = some n := by
  rw [toUint8?, uint8Item, Item.toUint?_ofNat (by simpa using n.toNat_lt)]
  simp

@[simp] theorem toStd?_stdItem (std : Std) : toStd? (stdItem std) = some std := by
  rw [toStd?, stdItem, Item.toUint?_ofNat (by simpa using std.toNat_lt)]
  simp

/-- What arrives of a number: zero for a missing one. -/
def receivedInt (x : Option ℤ) : Option ℤ := some (x.getD 0)

theorem bigItem_eq_ok {x : Option ℤ} {item : Item} :
    bigItem x = .ok item ↔ (∀ n ∈ x, 0 ≤ n) ∧ item = .ofNat (x.getD 0).toNat := by
  cases x with
  | none => simp [bigItem, Item.ofNat, beBytes, beBytesAux, eq_comm]
  | some n =>
    rw [bigItem]
    split_ifs with hneg
    · simp [hneg]
    · simp [not_lt.1 hneg, eq_comm]

theorem toBig?_of_bigItem {x : Option ℤ} {item : Item} (h : bigItem x = .ok item) :
    toBig? item = some (receivedInt x) := by
  obtain ⟨hnonneg, rfl⟩ := bigItem_eq_ok.1 h
  have hval : ((x.getD 0).toNat : ℤ) = x.getD 0 := by
    cases x with
    | none => rfl
    | some n => exact Int.toNat_of_nonneg (hnonneg n rfl)
  rw [toBig?, Item.toNat?_ofNat, receivedInt, ← hval]
  simp

theorem toUint8OrNil?_uint8Item (n : UInt8) :
    toUint8OrNil? (uint8Item n) = some (if n = 0 then none else some n) := by
  split_ifs with hn
  · subst hn
    rfl
  · have hne : beBytes n.toNat ≠ [] := by
      intro hnil
      have hzero := beNat_beBytes n.toNat
      rw [hnil] at hzero
      exact hn (UInt8.toNat_inj.1 hzero.symm)
    have hsome := toUint8?_uint8Item n
    rw [uint8Item, Item.ofNat] at hsome ⊢
    cases hb : beBytes n.toNat with
    | nil => exact absurd hb hne
    | cons x b =>
      rw [hb] at hsome
      change (toUint8? (.str (x :: b))).map some = some (some n)
      rw [hsome]
      rfl

/-! ## The data of operations -/

structure OpData where
  std : Std := 0
  address : Address := 0
  tokenId : Option ℤ := none
  owner : Address := 0
  spender : Address := 0
  operator : Address := 0
  fromAddr : Address := 0
  toAddr : Address := 0
  newCost : Option ℤ := none
  value : Option ℤ := none
  index : Option ℤ := none
  isApproved : Bool := false
  data : Bytes := []
  deriving DecidableEq, Repr

namespace OpData

variable (d : OpData)

/-- The fields in RLP.  `Data` is a byte string; its tag `tail` is for other slices. -/
def items : Except OpError (List Item) := do
  let tokenId ← bigItem d.tokenId
  let newCost ← bigItem d.newCost
  let value ← bigItem d.value
  let index ← bigItem d.index
  return [stdItem d.std, addressItem d.address, tokenId, addressItem d.owner,
    addressItem d.spender, addressItem d.operator, addressItem d.fromAddr, addressItem d.toAddr,
    newCost, value, index, boolItem d.isApproved, .str d.data]

def ofItem? : Item → Option OpData
  | .list [std, address, tokenId, owner, spender, operator, fromAddr, toAddr, newCost, value,
      index, isApproved, data] => do
    let std ← toStd? std
    let address ← toAddress? address
    let tokenId ← toBig? tokenId
    let owner ← toAddress? owner
    let spender ← toAddress? spender
    let operator ← toAddress? operator
    let fromAddr ← toAddress? fromAddr
    let toAddr ← toAddress? toAddr
    let newCost ← toBig? newCost
    let value ← toBig? value
    let index ← toBig? index
    let isApproved ← toBool? isApproved
    let data ← data.toBytes?
    return { std, address, tokenId, owner, spender, operator, fromAddr, toAddr, newCost, value,
             index, isApproved, data }
  | _ => none

/-! The fields that `rlpDecode` hands to an operation, with their checks. -/

def getStd : Except OpError Std := do
  failIf (¬ (d.std = stdWRC20 ∨ d.std = stdWRC721 ∨ d.std = 0)) .standardNotValid
  return d.std

/-- An address that is set. -/
def needAddress (a : Address) (e : OpError) : Except OpError Address := do
  failIf (a = 0) e
  return a

def getAddress : Except OpError Address := needAddress d.address .noAddress
def getOwner : Except OpError Address := needAddress d.owner .noOwner
def getFrom : Except OpError Address := needAddress d.fromAddr .noFrom
def getTo : Except OpError Address := needAddress d.toAddr .noTo
def getOperator : Except OpError Address := needAddress d.operator .noOperator
def getSpender : Except OpError Address := needAddress d.spender .noSpender

def getNewCost : Except OpError ℤ := needInt d.newCost .noValue
def getValue : Except OpError ℤ := needInt d.value .noValue
def getId : Except OpError ℤ := needInt d.tokenId .noTokenId

/-- `rlpDecode` to an operation with the given code; a creation has data of its own. -/
def operation : Code → Except OpError Operation
  | .create => .error .opNotValid
  | .approve => do
    let std ← d.getStd
    let value ← d.getValue
    let spender ← d.getSpender
    return .approve std value spender
  | .transfer => do
    let std ← d.getStd
    let value ← d.getValue
    let toAddr ← d.getTo
    return .transfer std value toAddr
  | .transferFrom => do
    let std ← d.getStd
    let value ← d.getValue
    let fromAddr ← d.getFrom
    let toAddr ← d.getTo
    return .transferFrom std value toAddr fromAddr
  | .properties => do
    let address ← d.getAddress
    let id ← d.getId
    return .properties address (some id)
  | .balanceOf => do
    let address ← d.getAddress
    let owner ← d.getOwner
    return .balanceOf address owner
  | .allowance => do
    let std ← d.getStd
    let address ← d.getAddress
    let owner ← d.getOwner
    let spender ← d.getSpender
    return .allowance std address owner spender
  | .isApprovedForAll => do
    let std ← d.getStd
    let address ← d.getAddress
    let owner ← d.getOwner
    let operator ← d.getOperator
    return .isApprovedForAll std address owner operator
  | .setApprovalForAll => do
    let std ← d.getStd
    let operator ← d.getOperator
    return .setApprovalForAll std operator d.isApproved
  | .mint => do
    let std ← d.getStd
    let toAddr ← d.getTo
    let id ← d.getId
    return .mint std toAddr id d.data
  | .burn => do
    let std ← d.getStd
    let id ← d.getId
    return .burn std id
  | .tokenOfOwnerByIndex => do
    let std ← d.getStd
    let address ← d.getAddress
    let owner ← d.getOwner
    return .tokenOfOwnerByIndex std address owner d.index
  | .safeTransferFrom => do
    let std ← d.getStd
    let value ← d.getValue
    let fromAddr ← d.getFrom
    let toAddr ← d.getTo
    return .safeTransferFrom std value toAddr fromAddr d.data
  | .setPrice => do
    let value ← d.getValue
    let id ← d.getId
    return .setPrice value (some id)
  | .buy => do
    let newCost ← d.getNewCost
    let id ← d.getId
    return .buy (some id) (some newCost)
  | .cost => do
    let address ← d.getAddress
    let id ← d.getId
    return .cost address (some id)

/-- The data as it arrives. -/
def received : OpData :=
  { d with
    tokenId := receivedInt d.tokenId, newCost := receivedInt d.newCost,
    value := receivedInt d.value, index := receivedInt d.index }

end OpData

structure CreateOpData where
  std : Std
  name : Bytes
  symbol : Bytes
  totalSupply : Option ℤ
  decimals : Option UInt8
  baseURI : Bytes
  percentFee : Option UInt8
  deriving DecidableEq, Repr

/-- The two last fields may be missing. -/
def CreateOpData.ofItem? : Item → Option CreateOpData
  | .list (std :: name :: symbol :: totalSupply :: decimals :: optional) => do
    let std ← toStd? std
    let name ← name.toBytes?
    let symbol ← symbol.toBytes?
    let totalSupply ← toBig? totalSupply
    let decimals ← toUint8OrNil? decimals
    match optional with
    | [] => return ⟨std, name, symbol, totalSupply, decimals, [], none⟩
    | [baseURI] => do
      let baseURI ← baseURI.toBytes?
      return ⟨std, name, symbol, totalSupply, decimals, baseURI, none⟩
    | [baseURI, percentFee] => do
      let baseURI ← baseURI.toBytes?
      let percentFee ← toUint8? percentFee
      return ⟨std, name, symbol, totalSupply, decimals, baseURI, some percentFee⟩
    | _ => none
  | _ => none

/-! ## The format -/

namespace Operation

/-- `rlpEncode`: the fields of `opData` that an operation has. -/
def opData : Operation → OpData
  | create .. => {}
  | approve std value spender => { std, value, spender }
  | transfer std value toAddr => { std, value, toAddr }
  | transferFrom std value toAddr fromAddr => { std, value, toAddr, fromAddr }
  | properties address id => { address, tokenId := id }
  | balanceOf address owner => { address, owner }
  | allowance std address owner spender => { std, address, owner, spender }
  | isApprovedForAll std address owner operator => { std, address, owner, operator }
  | setApprovalForAll std operator isApproved => { std, operator, isApproved }
  | mint std toAddr id data => { std, toAddr, tokenId := id, data }
  | burn std id => { std, tokenId := id }
  | tokenOfOwnerByIndex std address owner index => { std, address, owner, index }
  | safeTransferFrom std value toAddr fromAddr data => { std, value, toAddr, fromAddr, data }
  | setPrice value id => { value, tokenId := id }
  | buy id newCost => { tokenId := id, newCost }
  | cost address id => { address, tokenId := id }

/-- What `MarshalBinary` gives to the RLP encoder.  A creation always sets the pointers to its
    decimals and its fee, so no optional field is left out. -/
def items : Operation → Except OpError (List Item)
  | create std name symbol decimals totalSupply baseURI percentFee => do
    let totalSupply ← bigItem totalSupply
    return [stdItem std, .str name, .str symbol, totalSupply, uint8Item decimals,
      .str (baseURI.getD []), uint8Item percentFee]
  | op => op.opData.items

def marshalBinary (op : Operation) : Except OpError Bytes := do
  let items ← op.items
  return encode (.list items)

/-- `UnmarshalBinary` of the operation with the given code. -/
def unmarshalBinary (code : Code) (b : Bytes) : Except OpError Operation :=
  match code with
  | .create =>
    match (Rlp.decodeBytes b).bind CreateOpData.ofItem? with
    | none => .error .rlp
    | some d => createInit d.std d.name d.symbol d.decimals d.percentFee d.totalSupply d.baseURI
  | code =>
    match (Rlp.decodeBytes b).bind OpData.ofItem? with
    | none => .error .rlp
    | some d => d.operation code

def encodeToBytes (op : Operation) : Except OpError Bytes := do
  let b ← op.marshalBinary
  return opPrefix :: op.opCode.byte :: b

/-- `DecodeBytes`, with `GetOpCode`. -/
def decodeBytes : Bytes → Except OpError Operation
  | x :: code :: b => do
    failIf (x ≠ opPrefix) .prefixNotValid
    match Code.ofByte? code with
    | none => .error .opNotValid
    | some code => unmarshalBinary code b
  | _ => .error .rawDataShort

end Operation

/-! ## What arrives -/

/-- The numbers of the data can be written. -/
@[mk_iff]
structure OpData.Writable (d : OpData) : Prop where
  tokenId : ∀ n ∈ d.tokenId, 0 ≤ n
  newCost : ∀ n ∈ d.newCost, 0 ≤ n
  value : ∀ n ∈ d.value, 0 ≤ n
  index : ∀ n ∈ d.index, 0 ≤ n

theorem OpData.items_eq_ok {d : OpData} : (∃ xs, d.items = .ok xs) ↔ d.Writable := by
  constructor
  · rintro ⟨xs, h⟩
    obtain ⟨tokenId, ht, h⟩ := bind_eq_ok.1 h
    obtain ⟨newCost, hc, h⟩ := bind_eq_ok.1 h
    obtain ⟨value, hv, h⟩ := bind_eq_ok.1 h
    obtain ⟨index, hi, -⟩ := bind_eq_ok.1 h
    exact ⟨(bigItem_eq_ok.1 ht).1, (bigItem_eq_ok.1 hc).1, (bigItem_eq_ok.1 hv).1,
      (bigItem_eq_ok.1 hi).1⟩
  · rintro ⟨ht, hc, hv, hi⟩
    rw [items, bigItem_eq_ok.2 ⟨ht, rfl⟩, bigItem_eq_ok.2 ⟨hc, rfl⟩, bigItem_eq_ok.2 ⟨hv, rfl⟩,
      bigItem_eq_ok.2 ⟨hi, rfl⟩]
    exact ⟨_, rfl⟩

theorem OpData.ofItem?_items {d : OpData} {xs : List Item} (h : d.items = .ok xs) :
    OpData.ofItem? (.list xs) = some d.received := by
  obtain ⟨tokenId, ht, h⟩ := bind_eq_ok.1 h
  obtain ⟨newCost, hc, h⟩ := bind_eq_ok.1 h
  obtain ⟨value, hv, h⟩ := bind_eq_ok.1 h
  obtain ⟨index, hi, h⟩ := bind_eq_ok.1 h
  cases h
  simp [ofItem?, toBig?_of_bigItem ht, toBig?_of_bigItem hc, toBig?_of_bigItem hv,
    toBig?_of_bigItem hi, Item.toBytes?, received]

namespace Operation

/-- What the receiver makes of an operation. -/
def arrives : Operation → Except OpError Operation
  | create std name symbol decimals totalSupply baseURI percentFee =>
    createInit std name symbol (if decimals = 0 then none else some decimals) (some percentFee)
      (receivedInt totalSupply) (baseURI.getD [])
  | op => op.opData.received.operation op.opCode

/-- The operation can be encoded, and comes back as it was. -/
def RoundTrips (op : Operation) : Prop :=
  ∃ b, op.encodeToBytes = .ok b ∧ decodeBytes b = .ok op

theorem unmarshalBinary_of_items {op : Operation} {xs : List Item} (h : op.items = .ok xs)
    (hsize : (encode (.list xs)).length < 2 ^ 64) :
    unmarshalBinary op.opCode (encode (.list xs)) = op.arrives := by
  cases op with
  | create std name symbol decimals totalSupply baseURI percentFee =>
    obtain ⟨supply, hsupply, h⟩ := bind_eq_ok.1 h
    cases h
    simp [unmarshalBinary, opCode, decodeBytes_encode _ hsize, CreateOpData.ofItem?,
      toBig?_of_bigItem hsupply, toUint8OrNil?_uint8Item, Item.toBytes?, arrives]
  | _ => simp [unmarshalBinary, opCode, decodeBytes_encode _ hsize, OpData.ofItem?_items h, arrives]

theorem roundTrips_iff_arrives {op : Operation}
    (hsize : ∀ b, op.encodeToBytes = .ok b → b.length < 2 ^ 64) :
    op.RoundTrips ↔ (∃ xs, op.items = .ok xs) ∧ op.arrives = .ok op := by
  have hdecode : ∀ {xs}, op.items = .ok xs →
      op.encodeToBytes = .ok (opPrefix :: op.opCode.byte :: encode (.list xs)) ∧
        decodeBytes (opPrefix :: op.opCode.byte :: encode (.list xs)) = op.arrives := by
    intro xs hxs
    have hencode : op.encodeToBytes = .ok (opPrefix :: op.opCode.byte :: encode (.list xs)) := by
      rw [encodeToBytes, marshalBinary, hxs]
      rfl
    have hlen := hsize _ hencode
    rw [List.length_cons, List.length_cons] at hlen
    refine ⟨hencode, ?_⟩
    rw [decodeBytes, failIf_of_not (by simp), ok_bind, Code.ofByte?_byte]
    exact unmarshalBinary_of_items hxs (by omega)
  constructor
  · rintro ⟨b, hb, hdec⟩
    obtain ⟨m, hm, -⟩ := bind_eq_ok.1 hb
    obtain ⟨xs, hxs, -⟩ := bind_eq_ok.1 hm
    obtain ⟨hencode, harrives⟩ := hdecode hxs
    rw [hencode] at hb
    cases hb
    exact ⟨⟨xs, hxs⟩, harrives.symm.trans hdec⟩
  · rintro ⟨⟨xs, hxs⟩, harrives⟩
    obtain ⟨hencode, hdec⟩ := hdecode hxs
    exact ⟨_, hencode, hdec.trans harrives⟩

/-- Standards that `rlpDecode` lets pass. -/
def KnownStd (std : Std) : Prop := std = stdWRC20 ∨ std = stdWRC721 ∨ std = 0

instance (std : Std) : Decidable (KnownStd std) :=
  inferInstanceAs (Decidable (std = stdWRC20 ∨ std = stdWRC721 ∨ std = 0))

/-- A number that is there and not negative. -/
def Given (x : Option ℤ) : Prop := ∃ n, x = some n ∧ 0 ≤ n

/-- The operations that the format can tell apart. -/
def Representable : Operation → Prop
  | create std _ _ decimals totalSupply _ _ =>
    std = stdWRC20 → decimals ≠ 0 ∧ Given totalSupply
  | approve std value _ => KnownStd std ∧ 0 ≤ value
  | transfer _ value _ => 0 ≤ value
  | transferFrom std value _ _ => KnownStd std ∧ 0 ≤ value
  | safeTransferFrom _ value _ _ _ => 0 ≤ value
  | mint _ _ id _ => 0 ≤ id
  | burn _ id => 0 ≤ id
  | tokenOfOwnerByIndex _ _ _ index => Given index
  | properties _ id => Given id
  | setPrice _ id => Given id
  | buy id newCost => Given id ∧ Given newCost
  | cost _ id => Given id
  | balanceOf _ _ => True
  | allowance _ _ _ _ => True
  | isApprovedForAll _ _ _ _ => True
  | setApprovalForAll _ _ _ => True

/-! ### The fields of what arrives -/

section
variable {d : OpData}

@[simp] theorem getValue_received : d.received.getValue = .ok (d.value.getD 0) := rfl

@[simp] theorem getId_received : d.received.getId = .ok (d.tokenId.getD 0) := rfl

@[simp] theorem getNewCost_received : d.received.getNewCost = .ok (d.newCost.getD 0) := rfl

theorem needAddress_of_ne {a : Address} {e : OpError} (h : a ≠ 0) :
    OpData.needAddress a e = .ok a := by
  rw [OpData.needAddress, failIf_of_not h]
  rfl

@[simp] theorem getAddress_received (h : d.address ≠ 0) : d.received.getAddress = .ok d.address :=
  needAddress_of_ne h

@[simp] theorem getOwner_received (h : d.owner ≠ 0) : d.received.getOwner = .ok d.owner :=
  needAddress_of_ne h

@[simp] theorem getFrom_received (h : d.fromAddr ≠ 0) : d.received.getFrom = .ok d.fromAddr :=
  needAddress_of_ne h

@[simp] theorem getTo_received (h : d.toAddr ≠ 0) : d.received.getTo = .ok d.toAddr :=
  needAddress_of_ne h

@[simp] theorem getOperator_received (h : d.operator ≠ 0) : d.received.getOperator = .ok d.operator :=
  needAddress_of_ne h

@[simp] theorem getSpender_received (h : d.spender ≠ 0) : d.received.getSpender = .ok d.spender :=
  needAddress_of_ne h

@[simp] theorem getStd_received :
    d.received.getStd = if KnownStd d.std then .ok d.std else .error .standardNotValid := by
  change (failIf (¬ KnownStd d.std) OpError.standardNotValid >>= fun _ => pure d.std) = _
  split_ifs with h
  · rw [failIf_of_not (not_not.2 h)]
    rfl
  · rw [failIf_of h]
    rfl

@[simp] theorem isApproved_received : d.received.isApproved = d.isApproved := rfl

@[simp] theorem data_received : d.received.data = d.data := rfl

@[simp] theorem index_received : d.received.index = some (d.index.getD 0) := rfl

theorem knownStd_wrc20 : KnownStd stdWRC20 := .inl rfl

theorem knownStd_wrc721 : KnownStd stdWRC721 := .inr (.inl rfl)

theorem given_iff {x : Option ℤ} : (∀ n ∈ x, 0 ≤ n) ∧ some (x.getD 0) = x ↔ Given x := by
  cases x <;> simp [Given]

end

/-- The operations other than creations go through `opData`. -/
theorem roundTrips_iff_opData {op : Operation} (hcode : op.opCode ≠ .create)
    (hsize : ∀ b, op.encodeToBytes = .ok b → b.length < 2 ^ 64) :
    op.RoundTrips ↔ op.opData.Writable ∧ op.opData.received.operation op.opCode = .ok op := by
  rw [roundTrips_iff_arrives hsize, ← OpData.items_eq_ok]
  cases op with
  | create => exact absurd rfl hcode
  | _ => exact Iff.rfl

theorem roundTrips_create {op : Operation} (hcode : op.opCode = .create) (h : op.WellFormed)
    (hsize : ∀ b, op.encodeToBytes = .ok b → b.length < 2 ^ 64) :
    op.RoundTrips ↔ op.Representable := by
  rw [roundTrips_iff_arrives hsize]
  cases op with
  | create std name symbol decimals totalSupply baseURI percentFee =>
    obtain ⟨hname, hsymbol, ⟨rfl, hsupply, rfl, rfl⟩ | ⟨rfl, rfl, rfl, uri, huri, rfl⟩⟩ := h
    · have hitems : (∃ xs, (create stdWRC20 name symbol decimals totalSupply none 0).items =
          .ok xs) ↔ ∀ n ∈ totalSupply, 0 ≤ n := by
        simp only [items, bind_eq_ok, bigItem_eq_ok]
        exact ⟨fun ⟨_, _, ⟨hn, _⟩, _⟩ => hn, fun hn => ⟨_, _, ⟨hn, rfl⟩, rfl⟩⟩
      have hdecimals : ((if decimals = 0 then none else some decimals).getD defaultDecimals =
          decimals) ↔ decimals ≠ 0 := by
        split_ifs with hzero
        · simp [hzero, defaultDecimals]
        · simp [hzero]
      rw [hitems, arrives, createInit, failIf_of_not hname, failIf_of_not hsymbol]
      simp [Representable, receivedInt, hdecimals, ← given_iff, failIf]
      tauto
    · refine iff_of_true ⟨⟨_, rfl⟩, ?_⟩ fun h20 => absurd h20 (by decide)
      rw [arrives, createInit, failIf_of_not hname, failIf_of_not hsymbol]
      simp [stdWRC20, stdWRC721, failIf_of_not huri]
  | _ => cases hcode

/-- **Encoding loses nothing**, of the operations that the format can tell apart: those whose
    numbers are there and not negative, whose standard is known and whose decimals are not
    zero. -/
theorem roundTrips_iff {op : Operation} (h : Constructed op)
    (hsize : ∀ b, op.encodeToBytes = .ok b → b.length < 2 ^ 64) :
    op.RoundTrips ↔ op.Representable := by
  have hwf := h.wellFormed
  by_cases hcode : op.opCode = .create
  · exact roundTrips_create hcode hwf hsize
  rw [roundTrips_iff_opData hcode hsize, OpData.writable_iff]
  cases op with
  | create => exact absurd rfl hcode
  | approve std value spender =>
    by_cases hstd : KnownStd std
    · have hne : spender ≠ 0 := hwf
      simp [opData, OpData.operation, opCode, Representable, hstd, hne]
    · simp [opData, OpData.operation, opCode, Representable, hstd]
  | transferFrom std value toAddr fromAddr =>
    obtain ⟨hto, hfrom⟩ := hwf
    by_cases hstd : KnownStd std
    · simp [opData, OpData.operation, opCode, Representable, hstd, hto, hfrom]
    · simp [opData, OpData.operation, opCode, Representable, hstd]
  | buy id newCost =>
    have hcost : ∀ n ∈ newCost, 0 ≤ n := hwf
    simp [opData, OpData.operation, opCode, Representable, ← given_iff]
    tauto
  | _ =>
    simp only [WellFormed] at hwf
    simp [opData, OpData.operation, opCode, Representable, knownStd_wrc20, knownStd_wrc721, hwf,
      ← given_iff]

/-- A coin with the given decimals and supply. -/
def coinCreation (decimals : UInt8) (totalSupply : ℤ) : Operation :=
  .create stdWRC20 [0x54] [0x54] decimals totalSupply none 0

theorem coinCreation_roundTrips : (coinCreation 2 0).RoundTrips := by
  have hlen : (coinCreation 2 0).encodeToBytes.map List.length = .ok 10 := by decide +kernel
  have hnew : newWrc20CreateOperation [0x54] [0x54] (some 2) (some 0) = .ok (coinCreation 2 0) := rfl
  refine (roundTrips_iff (.wrc20Create hnew) ?_).2 fun _ => ⟨by decide, 0, rfl, le_rfl⟩
  intro b hb
  rw [hb] at hlen
  rw [Except.ok.inj hlen]
  norm_num

/-- Zero decimals come back as eighteen, and a missing price as zero. -/
theorem zero_and_missing_lost :
    newWrc20CreateOperation [0x54] [0x54] (some 0) (some 1000) = .ok (coinCreation 0 1000) ∧
      ((coinCreation 0 1000).encodeToBytes >>= decodeBytes) = .ok (coinCreation 18 1000) ∧
      newBuyOperation (some 5) none = .ok (buy (some 5) none) ∧
      ((buy (some 5) none).encodeToBytes >>= decodeBytes) = .ok (buy (some 5) (some 0)) := by
  decide +kernel

end Operation

end Gwat.Token
