/-
  The processor of token operations (`token/processor.go`, `token/operation`).

  A handler reads the storage of the token through a stream, changes it there, and stores
  the result at its end; deferred events are logged last.  What a handler wrote to the state
  before it fails stays written until `call` reverts to its snapshot, so handlers are `Act`s.
-/
import Gwat.Lib.Journal
import Gwat.Token.Storage

namespace Gwat.Token

open GoLib Encoding

/-! ## Operations -/

abbrev Std := UInt16

def stdWRC20 : Std := 20
def stdWRC721 : Std := 721

/-- The part of a creation that depends on the standard. -/
inductive CreateKind where
  | wrc20 (decimals : UInt8) (totalSupply : ℤ)
  | wrc721 (baseURI : Bytes) (percentFee : UInt8)
  deriving DecidableEq, Repr

def CreateKind.standard : CreateKind → Std
  | wrc20 _ _ => stdWRC20
  | wrc721 _ _ => stdWRC721

/-- `BaseURI`; empty where it is not set. -/
def CreateKind.baseURI : CreateKind → Bytes
  | wrc20 _ _ => []
  | wrc721 uri _ => uri

/-- `createOperation`.  Its texts come with one transaction. -/
structure CreateOp where
  name : Bytes
  symbol : Bytes
  kind : CreateKind
  size : name.length + symbol.length + kind.baseURI.length < 2 ^ 48 := by decide

/-- The operations that `DecodeBytes` gives.  `transferFrom` stands for the safe one, too;
    `query` for the operations that `Call` has no case for. -/
inductive TokenOp where
  | create (op : CreateOp)
  | transferFrom (std : Std) (fromAddr toAddr : Address) (value : ℤ)
  | transfer (std : Std) (toAddr : Address) (value : ℤ)
  | approve (std : Std) (spender : Address) (value : ℤ)
  | mint (std : Std) (toAddr : Address) (tokenId : ℤ) (metadata : Bytes)
  | burn (std : Std) (tokenId : ℤ)
  | setApprovalForAll (std : Std) (operator : Address) (approved : Bool)
  | buy (tokenId newCost : Option ℤ)
  | setPrice (tokenId : Option ℤ) (value : ℤ)
  | query

/-! ## Names -/

def textBytes (s : String) : Bytes := s.toList.map fun c => UInt8.ofNat c.toNat

def nameField : Bytes := textBytes "Name"
def standardField : Bytes := textBytes "Standard"
def symbolField : Bytes := textBytes "Symbol"
def balancesField : Bytes := textBytes "Balances"
def creatorField : Bytes := textBytes "Creator"
def totalSupplyField : Bytes := textBytes "TotalSupply"
def decimalsField : Bytes := textBytes "Decimals"
def allowancesField : Bytes := textBytes "Allowances"
def costField : Bytes := textBytes "Cost"
def minterField : Bytes := textBytes "Minter"
def baseUriField : Bytes := textBytes "BaseUri"
def ownersField : Bytes := textBytes "Owners"
def metadataField : Bytes := textBytes "Metadata"
def operatorApprovalsField : Bytes := textBytes "OperatorApprovals"
def tokenApprovalsField : Bytes := textBytes "TokenApprovals"
def costMapField : Bytes := textBytes "CostMap"
def percentFeeField : Bytes := textBytes "PercentFee"

def metadataMaxSize : ℕ := 1024

/-! ## Numbers -/

/-- `uint256.FromBig`: negative numbers wrap around; the flag tells that the magnitude needs
    more than 256 bits. -/
def fromBig (x : ℤ) : ℕ × Bool := ((x % 2 ^ 256).toNat, 2 ^ 256 ≤ x.natAbs)

/-- `FromBig` where an overflow is an error. -/
def fromBigChecked (x : ℤ) : Except TokenError ℕ :=
  if (fromBig x).2 then .error .uint256Overflow else .ok (fromBig x).1

/-- `FillBytes(make([]byte, 32))` -/
def fillBytes (x : ℤ) : Except TokenError Bytes :=
  if 2 ^ 256 ≤ x.natAbs then .error .panic else .ok (bytesBE 32 x.natAbs)

/-- `big.Int.Bytes` -/
def bigBytes (x : ℤ) : Bytes := Rlp.beBytes x.natAbs

/-- `Std.MarshalBinary` -/
def stdMarshal (std : Std) : Bytes := bytesBE 2 std.toNat

/-- `Std.UnmarshalBinary`, which indexes the second byte. -/
def stdUnmarshal : Bytes → Except TokenError Std
  | hi :: lo :: _ => .ok (UInt16.ofNat (hi.toNat * 256 + lo.toNat))
  | _ => .error .panic

/-! ## The fields of a token -/

def newByteArrayDescriptor (name : Bytes) (l : ℕ) : Except TokenError FieldDescriptor := do
  let sc ← newScalarProperties uint8Type
  newFieldDescriptor name (.array sc (UInt64.ofNat l))

def newScalarField (name : Bytes) (tp : FieldType) : Except TokenError FieldDescriptor := do
  let sc ← newScalarProperties tp
  newFieldDescriptor name sc

def newByteArrayByteArrayMapDescriptor (name : Bytes) (keySize valueSize : UInt64) :
    Except TokenError FieldDescriptor := do
  let sc ← newScalarProperties uint8Type
  let mp ← newMapProperties (.array sc keySize) (.array sc valueSize)
  newFieldDescriptor name mp

def newByteArrayByteSliceMapDescriptor (name : Bytes) (keySize : UInt64) :
    Except TokenError FieldDescriptor := do
  let sc ← newScalarProperties uint8Type
  let mp ← newMapProperties (.array sc keySize) (.slice sc)
  newFieldDescriptor name mp

def newByteArrayScalarMapDescriptor (name : Bytes) (keySize : UInt64) (valType : FieldType) :
    Except TokenError FieldDescriptor := do
  let keyScalar ← newScalarProperties uint8Type
  let valueScalar ← newScalarProperties valType
  let mp ← newMapProperties (.array keyScalar keySize) valueScalar
  newFieldDescriptor name mp

def newScalarScalarMapDescriptor (name : Bytes) (keyType valType : FieldType) :
    Except TokenError FieldDescriptor := do
  let keyScalar ← newScalarProperties keyType
  let valueScalar ← newScalarProperties valType
  let mp ← newMapProperties keyScalar valueScalar
  newFieldDescriptor name mp

/-- The fields of the standard. -/
def kindFields : CreateKind → Except TokenError (List FieldDescriptor)
  | .wrc20 _ _ => do
    let creator ← newByteArrayDescriptor creatorField 20
    let decimals ← newScalarField decimalsField uint8Type
    let totalSupply ← newScalarField totalSupplyField uint256Type
    let allowances ← newByteArrayScalarMapDescriptor allowancesField 32 uint256Type
    let cost ← newScalarField costField uint256Type
    return [creator, decimals, totalSupply, allowances, cost]
  | .wrc721 baseURI _ => do
    let minter ← newByteArrayDescriptor minterField 20
    let baseUri ← newByteArrayDescriptor baseUriField baseURI.length
    let owners ← newByteArrayByteArrayMapDescriptor ownersField 20 20
    let metadata ← newByteArrayByteSliceMapDescriptor metadataField 20
    let tokenApprovals ← newByteArrayByteArrayMapDescriptor tokenApprovalsField 20 20
    let operatorApprovals ←
      newByteArrayScalarMapDescriptor operatorApprovalsField 32 uint8Type
    let percentFee ← newScalarField percentFeeField uint8Type
    let costMap ← newScalarScalarMapDescriptor costMapField uint256Type uint256Type
    return [minter, baseUri, owners, metadata, tokenApprovals, operatorApprovals, percentFee,
      costMap]

def newFieldsDescriptors (op : CreateOp) : Except TokenError (List FieldDescriptor) := do
  let std ← newByteArrayDescriptor standardField 2
  let name ← newByteArrayDescriptor nameField op.name.length
  let symbol ← newByteArrayDescriptor symbolField op.symbol.length
  let balances ← newByteArrayScalarMapDescriptor balancesField 20 uint256Type
  let rest ← kindFields op.kind
  return [std, name, symbol, balances] ++ rest

/-! ## Work on the storage -/

/-- `token.Processor`: the hash function and the addresses of new accounts. -/
structure Processor where
  keccak256 : Bytes → Hash
  createAddress : Address → UInt64 → Address

namespace Processor

open ByteProg

variable (p : Processor)

/-- `crypto.Keccak256(a[:], b[:])` -/
def pairKey (a b : Address) : Value := .bytes (p.keccak256 (a.bytes ++ b.bytes)).bytes

/-- `readFromMap` to a `*uint256.Int`. -/
def readUint256 (st : Storage) (name : Bytes) (key : Value) : StorageProg ℕ :=
  st.readFromMap p.keccak256 decodeUint256 name key

/-- `readFromMap` to a `*bool`. -/
def readBool (st : Storage) (name : Bytes) (key : Value) : StorageProg Bool :=
  st.readFromMap p.keccak256 decodeBool name key

/-- `readAddressFromMap`; `BytesToAddress` takes the last twenty bytes. -/
def readAddressFromMap (st : Storage) (name : Bytes) (key : Value) : StorageProg Address := do
  let addrB ← st.readFromMap p.keccak256 decodeBytes name key
  return addressOfBytes addrB

def readAddress (st : Storage) (field : Bytes) : StorageProg Address := do
  let addr ← st.readField decodeBytes field
  return addressOfBytes addr

def writeToMap (st : Storage) (name : Bytes) (key value : Value) : StorageProg Unit :=
  st.writeToMap p.keccak256 name key value

/-- `newStorageWithoutStdCheck`, after the account was found to exist. -/
def newStorageWithoutStdCheck : StorageProg (Storage × Std) := do
  let storage ← readStorage
  let stdB ← storage.readField decodeBytes standardField
  let std ← ofExcept (stdUnmarshal stdB)
  ofExcept (failIf (std = 0) .tokenNotExists)
  return (storage, std)

/-- `newStorage` for an operation of the given standard. -/
def newStorage (opStandard : Std) : StorageProg Storage := do
  let (storage, standard) ← newStorageWithoutStdCheck
  ofExcept (failIf (standard ≠ opStandard) .tokenOpStandardNotValid)
  return storage

/-- `transfer` of the package: the value is moved between two balances. -/
def transferBalance (st : Storage) (fromAddr toAddr : Address) (swapValue : ℤ) :
    StorageProg Unit := do
  let fromBalance ← p.readUint256 st balancesField (.bytes fromAddr.bytes)
  ofExcept (failIf ((fromBalance : ℤ) < swapValue) .notEnoughBalance)
  let newFromBalance ← ofExcept (fromBigChecked (fromBalance - swapValue))
  p.writeToMap st balancesField (.bytes fromAddr.bytes) (.uint256 newFromBalance)
  let toBalance ← p.readUint256 st balancesField (.bytes toAddr.bytes)
  let newToBalance ← ofExcept (fromBigChecked (toBalance + swapValue))
  p.writeToMap st balancesField (.bytes toAddr.bytes) (.uint256 newToBalance)

def wrc20SpendAllowance (st : Storage) (owner spender : Address) (amount : ℤ) :
    StorageProg Unit := do
  let currentAllowance ← p.readUint256 st allowancesField (p.pairKey owner spender)
  ofExcept (failIf ((currentAllowance : ℤ) < amount) .insufficientAllowance)
  p.writeToMap st allowancesField (p.pairKey owner spender)
    (.uint256 (fromBig (currentAllowance - amount)).1)

def wrc721TransferFrom (st : Storage) (caller fromAddr toAddr : Address) (tokenId : ℤ) :
    StorageProg Unit := do
  let owner ← p.readAddressFromMap st ownersField (.bytes (bigBytes tokenId))
  ofExcept (failIf (owner = 0) .notMinted)
  let tokenApprovals ← p.readAddressFromMap st tokenApprovalsField (.bytes (bigBytes tokenId))
  let isApprovedForAll ← p.readBool st operatorApprovalsField (p.pairKey owner caller)
  ofExcept (failIf (owner ≠ caller ∧ tokenApprovals ≠ caller ∧ ¬ isApprovedForAll) .wrongCaller)
  ofExcept (failIf (toAddr = 0) .incorrectTo)
  ofExcept (failIf (fromAddr ≠ owner) .incorrectTransferFrom)
  p.writeToMap st tokenApprovalsField (.bytes (bigBytes tokenId)) (.address 0)
  p.transferBalance st fromAddr toAddr 1
  p.writeToMap st ownersField (.bytes (bigBytes tokenId)) (.address toAddr)

def wrc721Approve (st : Storage) (caller spender : Address) (tokenId : ℤ) : StorageProg Unit := do
  let owner ← p.readAddressFromMap st ownersField (.bytes (bigBytes tokenId))
  ofExcept (failIf (owner = 0) .notMinted)
  let approvedForAll ← p.readBool st operatorApprovalsField (p.pairKey owner caller)
  ofExcept (failIf (owner ≠ caller ∧ ¬ approvedForAll) .wrongCaller)
  p.writeToMap st tokenApprovalsField (.bytes (bigBytes tokenId)) (.address spender)

/-- `tokenCreate` on the storage of the new account. -/
def createStorage (caller : Address) (op : CreateOp) : StorageProg Unit := do
  let fieldsDescriptors ← ofExcept (newFieldsDescriptors op)
  let storage ← Token.newStorage fieldsDescriptors
  storage.writeField standardField (.bytes (stdMarshal op.kind.standard))
  storage.writeField nameField (.bytes op.name)
  storage.writeField symbolField (.bytes op.symbol)
  match op.kind with
  | .wrc20 decimals totalSupply => do
    storage.writeField creatorField (.address caller)
    storage.writeField decimalsField (.uint8 decimals)
    let val ← ofExcept (fromBigChecked totalSupply)
    storage.writeField totalSupplyField (.uint256 val)
    p.writeToMap storage balancesField (.bytes caller.bytes) (.uint256 val)
  | .wrc721 baseURI percentFee => do
    storage.writeField minterField (.address caller)
    storage.writeField baseUriField (.bytes baseURI)
    storage.writeField percentFeeField (.uint8 percentFee)

/-- `transfer` on the storage; there is no transfer for WRC-721. -/
def transferStorage (caller : Address) (std : Std) (toAddr : Address) (value : ℤ) :
    StorageProg Unit := do
  let storage ← newStorage std
  if std = stdWRC20 then p.transferBalance storage caller toAddr value else return ()

/-- `transferFrom` on the storage. -/
def transferFromStorage (caller : Address) (std : Std) (fromAddr toAddr : Address) (value : ℤ) :
    StorageProg Unit := do
  let storage ← newStorage std
  if std = stdWRC20 then do
    p.wrc20SpendAllowance storage fromAddr caller value
    p.transferBalance storage fromAddr toAddr value
  else if std = stdWRC721 then p.wrc721TransferFrom storage caller fromAddr toAddr value
  else return ()

/-- `approve` on the storage. -/
def approveStorage (caller : Address) (std : Std) (spender : Address) (value : ℤ) :
    StorageProg Unit := do
  let storage ← newStorage std
  if std = stdWRC20 then do
    let v ← ofExcept (fromBigChecked value)
    p.writeToMap storage allowancesField (p.pairKey caller spender) (.uint256 v)
  else if std = stdWRC721 then p.wrc721Approve storage caller spender value
  else return ()

/-- The metadata of a new token, if there are any. -/
def writeMetadata (st : Storage) (tokenId : ℤ) (metadata : Bytes) : StorageProg Unit :=
  if metadata = [] then return ()
  else do
    ofExcept (failIf (metadataMaxSize < metadata.length) .metadataExceedsMaxSize)
    p.writeToMap st metadataField (.bytes (bigBytes tokenId)) (.bytes metadata)

/-- `mint` on the storage. -/
def mintStorage (caller : Address) (std : Std) (toAddr : Address) (tokenId : ℤ)
    (metadata : Bytes) : StorageProg Unit := do
  let storage ← newStorage std
  let minter ← readAddress storage minterField
  ofExcept (failIf (caller ≠ minter) .wrongMinter)
  let owner ← p.readAddressFromMap storage ownersField (.bytes (bigBytes tokenId))
  ofExcept (failIf (owner ≠ 0) .alreadyMinted)
  let balance ← p.readUint256 storage balancesField (.bytes toAddr.bytes)
  let newBalance ← ofExcept (fromBigChecked (balance + 1))
  p.writeToMap storage balancesField (.bytes toAddr.bytes) (.uint256 newBalance)
  p.writeToMap storage ownersField (.bytes (bigBytes tokenId)) (.bytes toAddr.bytes)
  p.writeMetadata storage tokenId metadata

/-- `burn` on the storage: the owner of the token. -/
def burnStorage (caller : Address) (std : Std) (tokenId : ℤ) : StorageProg Address := do
  let storage ← newStorage std
  let minter ← readAddress storage minterField
  ofExcept (failIf (caller ≠ minter) .wrongMinter)
  let owner ← p.readAddressFromMap storage ownersField (.bytes (bigBytes tokenId))
  ofExcept (failIf (owner ≠ caller) .incorrectOwner)
  let balance ← p.readUint256 storage balancesField (.bytes owner.bytes)
  let newBalance ← ofExcept (fromBigChecked (balance - 1))
  p.writeToMap storage balancesField (.bytes owner.bytes) (.uint256 newBalance)
  p.writeToMap storage ownersField (.bytes (bigBytes tokenId)) (.bytes [])
  p.writeToMap storage metadataField (.bytes (bigBytes tokenId)) (.bytes [])
  return owner

/-- `setApprovalForAll` on the storage. -/
def setApprovalForAllStorage (caller : Address) (std : Std) (operator : Address)
    (isApproved : Bool) : StorageProg Unit := do
  let storage ← newStorage std
  p.writeToMap storage operatorApprovalsField (p.pairKey caller operator) (.bool isApproved)

/-- `v, ok := …; if !ok { return err }` -/
def orError {α : Type} (x : Option α) (e : TokenError) : StorageProg α :=
  match x with
  | none => .fail e
  | some a => return a

/-- `setPrice` on the storage. -/
def setPriceStorage (caller : Address) (tokenId : Option ℤ) (value : ℤ) : StorageProg Unit := do
  let (storage, std) ← newStorageWithoutStdCheck
  let newCost ← ofExcept (fromBigChecked value)
  if std = stdWRC20 then do
    let creator ← readAddress storage creatorField
    ofExcept (failIf (caller ≠ creator) .incorrectOwner)
    storage.writeField costField (.uint256 newCost)
  else if std = stdWRC721 then do
    let tokenId ← orError tokenId .tokenIdIsNotSet
    let owner ← p.readAddressFromMap storage ownersField (.bytes (bigBytes tokenId))
    ofExcept (failIf (owner = 0) .notMinted)
    ofExcept (failIf (owner ≠ caller) .incorrectOwner)
    let id ← ofExcept (fromBigChecked tokenId)
    p.writeToMap storage costMapField (.uint256 id) (.uint256 newCost)
  else .fail .tokenOpStandardNotValid

/-- What `buy` has worked out when it comes to the transfer. -/
structure Purchase where
  std : Std
  transferFrom : Address
  transferValue : ℤ
  paymentValue : ℤ
  percentFee : UInt8

/-- `buy` of a WRC-20 token: as many units as the value pays for. -/
def buyWrc20 (st : Storage) (value : ℤ) : StorageProg Purchase := do
  let creator ← readAddress st creatorField
  let cost ← st.readField decodeUint256 costField
  ofExcept (failIf (cost = 0) .tokenIsNotForSale)
  ofExcept (failIf (value < cost) .tooSmallTxValue)
  let paymentValue := value - value % cost
  return ⟨stdWRC20, creator, paymentValue / cost, paymentValue, 0⟩

/-- `buy` of a WRC-721 token: the token changes its owner, loses its approval and gets the
    price that the buyer sets. -/
def buyWrc721 (st : Storage) (caller : Address) (value : ℤ) (tokenId newCost : Option ℤ) :
    StorageProg Purchase := do
  let tokenId ← orError tokenId .tokenIdIsNotSet
  let id ← ofExcept (fromBigChecked tokenId)
  let newCost ← orError newCost .newValueIsNotSet
  let owner ← p.readAddressFromMap st ownersField (.bytes (bigBytes tokenId))
  ofExcept (failIf (owner = 0) .notMinted)
  let cost ← p.readUint256 st costMapField (.uint256 id)
  ofExcept (failIf (cost = 0) .tokenIsNotForSale)
  ofExcept (failIf (value < cost) .tooSmallTxValue)
  p.writeToMap st ownersField (.bytes (bigBytes tokenId)) (.address caller)
  p.writeToMap st tokenApprovalsField (.bytes (bigBytes tokenId)) (.address 0)
  let newCostUint ← ofExcept (fromBigChecked newCost)
  p.writeToMap st costMapField (.uint256 id) (.uint256 newCostUint)
  let percentFee ← st.readField decodeUint8 percentFeeField
  return ⟨stdWRC721, owner, 1, cost, percentFee⟩

/-- The first switch of `buy` over the standard. -/
def purchase (st : Storage) (std : Std) (caller : Address) (value : ℤ)
    (tokenId newCost : Option ℤ) : StorageProg Purchase :=
  if std = stdWRC20 then buyWrc20 st value
  else if std = stdWRC721 then p.buyWrc721 st caller value tokenId newCost
  else .fail .tokenOpStandardNotValid

/-- `buy` on the storage, up to the payment. -/
def buyStorage (caller : Address) (value : ℤ) (tokenId newCost : Option ℤ) :
    StorageProg (Storage × Purchase) := do
  let (storage, std) ← newStorageWithoutStdCheck
  let purchase ← p.purchase storage std caller value tokenId newCost
  p.transferBalance storage purchase.transferFrom caller purchase.transferValue
  return (storage, purchase)

/-- Who gets the fee of a purchase: the minter, where there is a fee. -/
def feeReceiver (st : Storage) (percentFee : UInt8) : StorageProg (Option Address) :=
  if 0 < percentFee then do
    let minter ← readAddress st minterField
    return some minter
  else return none

/-! ## Events -/

/-- A log with an event's signature, two addresses and the data. -/
def event (signature : String) (token first second : Address) (data : Bytes) : Log :=
  ⟨token, .contract (p.keccak256 (textBytes signature)), [first.hash, second.hash], .raw data⟩

/-- `TransferWrc20`, `TransferWrc721` -/
def transferEvent (token fromAddr toAddr : Address) (data : Bytes) : Log :=
  p.event "Transfer(address,address,uint256)" token fromAddr toAddr data

/-- `ApprovalWrc20`, `ApprovalWrc721` -/
def approvalEvent (token owner spender : Address) (data : Bytes) : Log :=
  p.event "Approval(address,address,uint256)" token owner spender data

/-- `ApprovalForAllWrc721` -/
def approvalForAllEvent (token owner operator : Address) (approved : Bool) : Log :=
  p.event "ApprovalForAll(address,address,bool)" token owner operator [if approved then 1 else 0]

/-- `CreateWrc721`, which has one indexed address. -/
def createEvent (token fromAddr : Address) (baseUri : Bytes) : Log :=
  ⟨token, .contract (p.keccak256 (textBytes "Create(address,address,uint256)")), [fromAddr.hash],
    .raw baseUri⟩

/-! ## Handlers -/

/-- Code over the state whose effects stay when it fails. -/
abbrev StateAct := Act TokenError StateDB

open Act

variable {s : StateDB} {caller token : Address} {value : ℤ} {op : TokenOp}

/-- A program on the storage of an account, through a new stream. -/
def onStorage {α : Type} (token : Address) (prog : StorageProg α) (s : StateDB) :
    Except TokenError (α × StorageStream) :=
  prog.run stream (newStorageStream token s)

/-- A program on the storage of a token, which has to exist. -/
def withStorage {α : Type} (token : Address) (prog : StorageProg α) :
    StateAct (α × StorageStream) :=
  attempt fun s => do
    failIf (¬ s.exist token) .tokenNotExists
    onStorage token prog s

/-- An event with a number of 32 bytes. -/
def emit (log : Bytes → Log) (value : ℤ) : StateAct Unit := do
  let data ← attempt fun _ => fillBytes value
  write fun s => s.addLog (log data)

/-- `emit` under a condition. -/
def emitIf (c : Bool) (log : Bytes → Log) (value : ℤ) : StateAct Unit :=
  if c then emit log value else pure ()

/-- The event of a creation. -/
def creationEvent (caller tokenAddr : Address) (kind : CreateKind) : Log :=
  match kind with
  | .wrc20 _ totalSupply => p.transferEvent tokenAddr 0 caller (bytesBE 32 (fromBig totalSupply).1)
  | .wrc721 baseURI _ => p.createEvent tokenAddr caller baseURI

def tokenCreate (caller tokenAddr : Address) (op : CreateOp) : StateAct Bytes := do
  attempt fun s => failIf (s.getNonce tokenAddr ≠ 0) .tokenAddressCollision
  write fun s => s.createAccount tokenAddr
  write fun s => s.setNonce tokenAddr 1
  let r ← attempt (onStorage tokenAddr (p.createStorage caller op))
  write r.2.flush
  write fun s => s.addLog (p.creationEvent caller tokenAddr op.kind)
  return tokenAddr.bytes

def transfer (caller token : Address) (std : Std) (toAddr : Address) (value : ℤ) :
    StateAct Bytes := do
  attempt fun _ => failIf (token = 0) .noAddress
  let r ← withStorage token (p.transferStorage caller std toAddr value)
  write r.2.flush
  let ret ← attempt fun _ => fillBytes value
  emitIf (std = stdWRC20) (p.transferEvent token caller toAddr) value
  return ret

def transferFrom (caller token : Address) (std : Std) (fromAddr toAddr : Address) (value : ℤ) :
    StateAct Bytes := do
  attempt fun _ => failIf (token = 0) .noAddress
  let r ← withStorage token (p.transferFromStorage caller std fromAddr toAddr value)
  write r.2.flush
  let ret ← attempt fun _ => fillBytes value
  emitIf (std = stdWRC20 ∨ std = stdWRC721) (p.transferEvent token fromAddr toAddr) value
  return ret

def approve (caller token : Address) (std : Std) (spender : Address) (value : ℤ) :
    StateAct Bytes := do
  attempt fun _ => failIf (token = 0) .noAddress
  let r ← withStorage token (p.approveStorage caller std spender value)
  write r.2.flush
  let ret ← attempt fun _ => fillBytes value
  emitIf (std = stdWRC20 ∨ std = stdWRC721) (p.approvalEvent token caller spender) value
  return ret

def mint (caller token : Address) (std : Std) (toAddr : Address) (tokenId : ℤ)
    (metadata : Bytes) : StateAct Bytes := do
  let r ← withStorage token (p.mintStorage caller std toAddr tokenId metadata)
  write r.2.flush
  emit (p.transferEvent token 0 toAddr) tokenId
  return bigBytes tokenId

def burn (caller token : Address) (std : Std) (tokenId : ℤ) : StateAct Bytes := do
  let r ← withStorage token (p.burnStorage caller std tokenId)
  write r.2.flush
  emit (p.transferEvent token r.1 0) tokenId
  return bigBytes tokenId

def setApprovalForAll (caller token : Address) (std : Std) (operator : Address)
    (isApproved : Bool) : StateAct Bytes := do
  let r ← withStorage token (p.setApprovalForAllStorage caller std operator isApproved)
  write r.2.flush
  write fun s => s.addLog (p.approvalForAllEvent token caller operator isApproved)
  return operator.bytes

def setPrice (caller token : Address) (tokenId : Option ℤ) (value : ℤ) : StateAct Bytes := do
  let r ← withStorage token (p.setPriceStorage caller tokenId value)
  write r.2.flush
  return token.bytes

/-- The fee of a payment to another owner than the minter: what is left of the payment. -/
def takeFee (caller owner : Address) (minter : Option Address) (value : ℤ) (percentFee : UInt8) :
    StateAct ℤ :=
  match minter with
  | none => return value
  | some minter =>
    if owner ≠ minter then do
      let fee := (percentFee.toNat : ℤ) * value / 100
      write fun s => s.subBalance caller fee
      write fun s => s.addBalance minter fee
      return value - fee
    else return value

/-- The payment of a value that is not zero. -/
def settlePayment (st : Storage) (str : StorageStream) (caller owner : Address) (value : ℤ)
    (percentFee : UInt8) : StateAct StorageStream := do
  let r ← attempt fun _ => (feeReceiver st percentFee).run stream str
  let value ← takeFee caller owner r.1 value percentFee
  write fun s => s.subBalance caller value
  write fun s => s.addBalance owner value
  return r.2

/-- `makePayment`; it reads the minter through the stream of the operation. -/
def makePayment (st : Storage) (str : StorageStream) (caller owner : Address) (value : ℤ)
    (percentFee : UInt8) : StateAct StorageStream := do
  attempt fun s => failIf (s.getBalance caller < value) .notEnoughBalance
  if value = 0 then return str else settlePayment st str caller owner value percentFee

/-- `buy`; the event carries the transferred value also where a token has an id. -/
def buy (caller token : Address) (value : ℤ) (tokenId newCost : Option ℤ) : StateAct Bytes := do
  let r ← withStorage token (p.buyStorage caller value tokenId newCost)
  let (storage, purchase) := r.1
  let str ← makePayment storage r.2 caller purchase.transferFrom purchase.paymentValue
    purchase.percentFee
  write str.flush
  emit (p.transferEvent token purchase.transferFrom caller) purchase.transferValue
  return token.bytes

/-- The cases of `Call`. -/
def handle (caller token : Address) (value : ℤ) : TokenOp → StateAct Bytes
  | .create op => p.tokenCreate caller token op
  | .transferFrom std fromAddr toAddr v => p.transferFrom caller token std fromAddr toAddr v
  | .transfer std toAddr v => p.transfer caller token std toAddr v
  | .approve std spender v => p.approve caller token std spender v
  | .mint std toAddr tokenId metadata => p.mint caller token std toAddr tokenId metadata
  | .burn std tokenId => p.burn caller token std tokenId
  | .setApprovalForAll std operator approved =>
    p.setApprovalForAll caller token std operator approved
  | .buy tokenId newCost => p.buy caller token value tokenId newCost
  | .setPrice tokenId v => p.setPrice caller token tokenId v
  | .query => return []

/-- `Call` from the increment of the nonce on. -/
def perform (s : StateDB) (caller token : Address) (value : ℤ) (op : TokenOp) :
    Except TokenError Bytes × StateDB :=
  revertOnError (p.handle caller token value op) (s.setNonce caller (s.getNonce caller + 1))

def call (s : StateDB) (caller token : Address) (value : ℤ) (op : TokenOp) :
    Except TokenError Bytes × StateDB :=
  match op with
  | .create _ =>
    if token ≠ 0 then (.error .notNilTo, s)
    else if s.exist (p.createAddress caller (s.getNonce caller)) then
      (.error .addressAlreadyExists, s)
    else p.perform s caller (p.createAddress caller (s.getNonce caller)) value op
  | _ => p.perform s caller token value op

/-! ## Undoing an operation -/

@[simp] theorem journals_emit (log : Bytes → Log) (value : ℤ) : Journals (emit log value) :=
  (journals_attempt _).bind fun _ => journals_write _

@[simp] theorem journals_emitIf (c : Bool) (log : Bytes → Log) (value : ℤ) :
    Journals (emitIf c log value) := by
  unfold emitIf
  split_ifs <;> simp

@[simp] theorem journals_takeFee (caller owner : Address) (minter : Option Address) (value : ℤ)
    (percentFee : UInt8) : Journals (takeFee caller owner minter value percentFee) := by
  unfold takeFee
  cases minter with
  | none => exact journals_pure _
  | some minter =>
    dsimp only
    split_ifs
    · exact (journals_write _).bind fun _ => (journals_write _).bind fun _ => journals_pure _
    · exact journals_pure _

@[simp] theorem journals_makePayment (st : Storage) (str : StorageStream) (caller owner : Address)
    (value : ℤ) (percentFee : UInt8) :
    Journals (makePayment st str caller owner value percentFee) := by
  refine (journals_attempt _).bind fun _ => ?_
  split_ifs
  · exact journals_pure _
  · exact (journals_attempt _).bind fun _ => (journals_takeFee _ _ _ _ _).bind fun _ =>
      (journals_write _).bind fun _ => (journals_write _).bind fun _ => journals_pure _

/-- The handlers write through the journal only. -/
theorem journals_handle (caller token : Address) (value : ℤ) (op : TokenOp) :
    Journals (p.handle caller token value op) := by
  -- every handler is a sequence of computations, journaled writes and events
  cases op <;>
    simp only [handle, tokenCreate, transferFrom, transfer, approve, mint, burn,
      setApprovalForAll, buy, setPrice, withStorage] <;>
    repeat' with_reducible refine Journals.bind ?_ fun _ => ?_
  all_goals simp

/-- The creation of a token that `Call` refuses before it uses up the nonce. -/
def Refuses (s : StateDB) (caller token : Address) : TokenOp → Prop
  | .create _ => token ≠ 0 ∨ s.exist (p.createAddress caller (s.getNonce caller)) = true
  | _ => False

theorem call_of_refuses (h : p.Refuses s caller token op) :
    (p.call s caller token value op).2 = s := by
  cases op with
  | create op =>
    unfold call
    rcases h with h | h
    · simp [h]
    · by_cases ht : token = 0 <;> simp [ht, h]
  | _ => exact h.elim

theorem call_of_not_refuses (h : ¬ p.Refuses s caller token op) :
    ∃ token', p.call s caller token value op = p.perform s caller token' value op := by
  cases op with
  | create op =>
    simp only [Refuses, ne_eq, not_or, not_not] at h
    exact ⟨p.createAddress caller (s.getNonce caller), by simp [call, h.1, h.2]⟩
  | _ => exact ⟨token, rfl⟩

end Processor

end Gwat.Token
