/-
  The fields of a token's storage (`token/storage/storage.go`, `token/storage/maps.go`).
-/
import Gwat.Token.Signature

namespace Gwat.Token

open GoLib ByteProg

/-! ## Encoders -/

/-- The values that handlers store. -/
inductive Value where
  | bytes (b : Bytes)
  | address (a : Address)
  | uint8 (n : UInt8)
  | uint256 (n : ℕ)
  | bool (b : Bool)
  deriving DecidableEq, Repr

/-- The pairs of encoder and decoder. -/
inductive Encoding where
  | uint256
  | scalar
  | array
  deriving DecidableEq, Repr

/-- `getDefaultEncoderAndDecoder` -/
def getDefaultEncoding : ValueProperties → Except TokenError Encoding
  | .scalar t => .ok (if t = uint256Type then .uint256 else .scalar)
  | .array _ _ => .ok .array
  | .slice _ => .ok .array
  | .map _ _ => .error .unknownType

namespace Encoding

/-- The error for a value whose type the encoding does not support. -/
def mismatch : Encoding → TokenError
  | array => .arrayExpected
  | _ => .badType

/-- `encodeScalar`, `encodeArray`, `encodeUint256` -/
def encode : Encoding → Value → Except TokenError Bytes
  | scalar, .bool b => .ok [if b then 1 else 0]
  | scalar, .uint8 n => .ok [n]
  | scalar, .uint256 n => .ok (bytesBE 32 n)
  | uint256, .uint256 n => .ok (bytesBE 32 n)
  | array, .bytes b => .ok b
  | array, .address a => .ok a.bytes
  | e, _ => .error e.mismatch

/-- Decoding to a `*[]byte`. -/
def decodeBytes : Encoding → Bytes → Except TokenError Bytes
  | array, buf => .ok buf
  | e, _ => .error e.mismatch

/-- Decoding to a `*uint8`; an empty buffer is indexed beyond its length. -/
def decodeUint8 : Encoding → Bytes → Except TokenError UInt8
  | scalar, n :: _ => .ok n
  | scalar, [] => .error .panic
  | e, _ => .error e.mismatch

/-- Decoding to a `*uint256.Int`, which is an array of four words: `decodeArray` appends to
    it, and that panics. -/
def decodeUint256 : Encoding → Bytes → Except TokenError ℕ
  | uint256, buf => .ok (natOfBytes buf % 2 ^ 256)
  | scalar, buf => .ok (natOfBytes buf % 2 ^ 256)
  | array, buf =>
    if buf.length % 8 ≠ 0 then .error .badType
    else if buf ≠ [] then .error .panic
    else .ok 0

/-- Decoding to a `*bool` that holds `false`. -/
def decodeBool : Encoding → Bytes → Except TokenError Bool
  | scalar, buf => .ok (buf = [1])
  | e, _ => .error e.mismatch

end Encoding

/-! ## Maps -/

structure ByteMap where
  uniqPrefix : Bytes
  keySize : UInt64
  valueSize : UInt64
  deriving DecidableEq, Repr

def newByteMap (mapId : Bytes) (keySize valueSize : UInt64) : Except TokenError ByteMap :=
  if mapId = [] then .error .badMapId
  else if keySize = 0 then .error .keySizeIsZero
  else .ok ⟨mapId, keySize, valueSize⟩

def calculateOffset (keccak256 : Bytes → Hash) (uniqPrefix key : Bytes) : ℤ :=
  ((Fin.val (keccak256 (uniqPrefix ++ key)) : ℕ) : ℤ) * 32

namespace ByteMap

variable (keccak256 : Bytes → Hash)

/-- What `Put` writes: the value, after its length if the map holds slices. -/
def entryBytes (m : ByteMap) (value : Bytes) : Bytes :=
  if m.valueSize = 0 then uint64BytesBE (UInt64.ofNat value.length) ++ value else value

def put (m : ByteMap) (key value : Bytes) : StorageProg Unit := do
  ofExcept (failIf (m.keySize.toNat < key.length) .badKeySize)
  ofExcept (failIf (m.valueSize ≠ 0 ∧ m.valueSize.toNat < value.length) .badValueSize)
  write (m.entryBytes value) (calculateOffset keccak256 m.uniqPrefix key)

/-- The size and the offset of an entry: the size of a slice is stored before it. -/
def entryRange (m : ByteMap) (off : ℤ) : StorageProg (ℕ × ℤ) :=
  if m.valueSize = 0 then do
    let buf ← read 8 off
    return (natOfBytes buf, off + 8)
  else return (m.valueSize.toNat, off)

def get (m : ByteMap) (key : Bytes) : StorageProg Bytes := do
  ofExcept (failIf (m.keySize.toNat < key.length) .badKeySize)
  let (size, off) ← m.entryRange (calculateOffset keccak256 m.uniqPrefix key)
  makeBytes size
  read size off

end ByteMap

/-! ## Fields -/

/-- `FieldEntry` with its two implementations. -/
inductive FieldEntry where
  | field (info : FieldInfo) (encoding : Encoding)
  | map (byteMap : ByteMap) (key value : Encoding)
  deriving DecidableEq, Repr

def newFieldEntry (info : FieldInfo) : Except TokenError FieldEntry :=
  match info.descriptor.vp with
  | .map kp vp => do
    let key ← getDefaultEncoding kp
    let value ← getDefaultEncoding vp
    let byteMap ← newByteMap info.descriptor.name kp.fieldLength vp.fieldLength
    return .map byteMap key value
  | vp => do
    let encoding ← getDefaultEncoding vp
    return .field info encoding

/-- `storage`: the entries by the names of the fields. -/
abbrev Storage := GoMap Bytes FieldEntry

def fillFields (infos : List FieldInfo) : Except TokenError Storage :=
  infos.foldlM (fun fields info => do
    let entry ← newFieldEntry info
    return fields.insert info.descriptor.name entry) ∅

def newStorage (descriptors : List FieldDescriptor) : StorageProg Storage := do
  let sign ← .ofExcept (newSignatureV1 descriptors)
  writeToStream sign
  .ofExcept (fillFields sign)

def readStorage : StorageProg Storage := do
  let sign ← readFromStream
  .ofExcept (fillFields sign)

namespace FieldInfo

/-- The bytes of a field. -/
def readBytes (info : FieldInfo) : StorageProg Bytes := do
  makeBytes info.length.toNat
  read info.length.toNat info.offset

/-- `fieldEntry.Write`; only a slice may be longer than the field. -/
def writeBytes (info : FieldInfo) (buf : Bytes) : StorageProg Unit := do
  .ofExcept (failIf (info.descriptor.vp.isSlice = false ∧ info.length.toNat < buf.length)
    .valueTooLarge)
  write buf info.offset

end FieldInfo

namespace Storage

variable (keccak256 : Bytes → Hash) (s : Storage)

/-- The entry of a field. -/
def entry (name : Bytes) : StorageProg FieldEntry :=
  .ofExcept (match s.lookup name with
    | none => .error .fieldNotFound
    | some e => .ok e)

/-- `ReadField` to a pointer that is no pair. -/
def readField {α : Type} (decode : Encoding → Bytes → Except TokenError α) (name : Bytes) :
    StorageProg α := do
  match ← s.entry name with
  | .map _ _ _ => .fail .keyValuePairExpected
  | .field info encoding => do
    let buf ← info.readBytes
    .ofExcept (decode encoding buf)

/-- `WriteField` with a value that is no pair. -/
def writeField (name : Bytes) (val : Value) : StorageProg Unit := do
  match ← s.entry name with
  | .map _ _ _ => .fail .keyValuePairExpected
  | .field info encoding => do
    let buf ← .ofExcept (encoding.encode val)
    info.writeBytes buf

/-- `ReadField` to a `*KeyValuePair`. -/
def readFromMap {α : Type} (decode : Encoding → Bytes → Except TokenError α) (name : Bytes)
    (key : Value) : StorageProg α := do
  match ← s.entry name with
  | .field info encoding => do
    let _ ← info.readBytes
    .fail encoding.mismatch
  | .map byteMap keyEncoding valueEncoding => do
    let keyB ← .ofExcept (keyEncoding.encode key)
    let res ← byteMap.get keccak256 keyB
    .ofExcept (decode valueEncoding res)

/-- `WriteField` with a `*KeyValuePair`. -/
def writeToMap (name : Bytes) (key value : Value) : StorageProg Unit := do
  match ← s.entry name with
  | .field _ encoding => .fail encoding.mismatch
  | .map byteMap keyEncoding valueEncoding => do
    let keyB ← .ofExcept (keyEncoding.encode key)
    let valueB ← .ofExcept (valueEncoding.encode value)
    byteMap.put keccak256 keyB valueB

end Storage

end Gwat.Token
