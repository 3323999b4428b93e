/-
  The layout of a token's storage (`token/storage/signature.go`).
-/
import Gwat.Token.Stream

namespace Gwat.Token

open GoLib ByteProg

/-- Code over the storage of a token. -/
abbrev StorageProg := ByteProg TokenError

/-! ## Properties of values -/

/-- `Type`: an id and the size of a scalar. -/
structure FieldType where
  id : UInt8
  size : UInt8
  deriving DecidableEq, Repr

def uint8Type : FieldType := ⟨0x01, 0x01⟩
def uint256Type : FieldType := ⟨0x01, 0x20⟩

def arrayId : UInt8 := 0x03
def sliceId : UInt8 := 0x04
def mapId : UInt8 := 0x05

def isScalar (tp : UInt8) : Bool := tp < arrayId
def isArray (tp : UInt8) : Bool := tp = arrayId
def isSlice (tp : UInt8) : Bool := tp = sliceId
def isMap (tp : UInt8) : Bool := tp = mapId

/-- `ValueProperties` with its four implementations. -/
inductive ValueProperties where
  | scalar (internalType : FieldType)
  | array (valueProperties : ValueProperties) (len : UInt64)
  | slice (valueProperties : ValueProperties)
  | map (keyProperties valueProperties : ValueProperties)
  deriving DecidableEq, Repr

def newScalarProperties (internalType : FieldType) : Except TokenError ValueProperties :=
  if isScalar internalType.id then .ok (.scalar internalType) else .error .isNotScalarType

def newMapProperties (key value : ValueProperties) : Except TokenError ValueProperties :=
  match key with
  | .map _ _ => .error .wrongKeyType
  | .slice _ => .error .wrongKeyType
  | _ => .ok (.map key value)

namespace ValueProperties

def marshalBinary : ValueProperties → Bytes
  | scalar t => [t.id, t.size]
  | array vp len => arrayId :: (uint64BytesBE len ++ vp.marshalBinary)
  | slice vp => sliceId :: vp.marshalBinary
  | map kp vp => mapId :: (kp.marshalBinary ++ vp.marshalBinary)

/-- `calculatePropertiesSize` -/
def propertiesSize : ValueProperties → ℕ
  | scalar _ => 2
  | array vp _ => 9 + vp.propertiesSize
  | slice vp => 1 + vp.propertiesSize
  | map kp vp => 1 + kp.propertiesSize + vp.propertiesSize

/-- `calculateFieldLength`; the product is taken in 64 bits. -/
def fieldLength : ValueProperties → UInt64
  | scalar t => t.size.toUInt64
  | array vp len => len * vp.fieldLength
  | slice _ => 0
  | map _ _ => 0

/-- The type is `SliceType`. -/
def isSlice : ValueProperties → Bool
  | slice _ => true
  | _ => false

/-- `newProperties` and `UnmarshalBinary`.  An index beyond the data and an unknown type
    panic; every round consumes a byte. -/
def unmarshalBinary : ℕ → Bytes → Except TokenError ValueProperties
  | 0, _ => .error .panic
  | _, [] => .error .panic
  | fuel + 1, tp :: data =>
    if isScalar tp then
      match data with
      | [] => .error .panic
      | size :: _ => .ok (scalar ⟨tp, size⟩)
    else if isArray tp then do
      failIf (data.length < 8) .panic
      let vp ← unmarshalBinary fuel (data.drop 8)
      return array vp (UInt64.ofNat (natOfBytes (data.take 8)))
    else if Token.isSlice tp then do
      let vp ← unmarshalBinary fuel data
      return slice vp
    else if isMap tp then do
      failIf (data = []) .panic
      failIf (data.head? = some mapId) .wrongType
      let kp ← unmarshalBinary fuel data
      failIf (data.length < kp.propertiesSize) .panic
      let vp ← unmarshalBinary fuel (data.drop kp.propertiesSize)
      return map kp vp
    else .error .panic

end ValueProperties

/-! ## Descriptors -/

structure FieldDescriptor where
  name : Bytes
  vp : ValueProperties
  deriving DecidableEq, Repr

def newFieldDescriptor (fieldName : Bytes) (v : ValueProperties) :
    Except TokenError FieldDescriptor :=
  match v with
  | .slice _ => .error .sliceNotInMap
  | _ => if 255 < fieldName.length then .error .nameTooBig else .ok ⟨fieldName, v⟩

namespace FieldDescriptor

def marshalBinary (fd : FieldDescriptor) : Bytes :=
  UInt8.ofNat fd.name.length :: (fd.name ++ fd.vp.marshalBinary)

def unmarshalBinary : Bytes → Except TokenError FieldDescriptor
  | [] => .error .panic
  | nameLen :: data => do
    failIf (data.length < nameLen.toNat) .panic
    let vp ← ValueProperties.unmarshalBinary data.length (data.drop nameLen.toNat)
    return ⟨data.take nameLen.toNat, vp⟩

def size (fd : FieldDescriptor) : ℕ := fd.vp.propertiesSize + (1 + fd.name.length)

end FieldDescriptor

structure FieldInfo where
  descriptor : FieldDescriptor
  offset : ℤ
  length : UInt64
  deriving DecidableEq, Repr

/-- `int64(n)` -/
def int64OfUint64 (n : UInt64) : ℤ := if n.toNat < 2 ^ 63 then n.toNat else n.toNat - 2 ^ 64

/-- `calculateFieldsOffset`: each field follows the one before. -/
def fieldsWithOffset : UInt64 → List FieldDescriptor → List FieldInfo
  | _, [] => []
  | start, fd :: fds =>
    ⟨fd, int64OfUint64 start, fd.vp.fieldLength⟩ ::
      fieldsWithOffset (start + fd.vp.fieldLength) fds

/-! ## The header -/

/-- The size of the header: version, number of fields and descriptors. -/
def headerSize (fds : List FieldDescriptor) : ℕ := 3 + (fds.map FieldDescriptor.size).sum

def newSignatureV1 (fd : List FieldDescriptor) : Except TokenError (List FieldInfo) :=
  if 255 < fd.length then .error .tooManyFields
  else .ok (fieldsWithOffset (UInt64.ofNat (headerSize fd)) fd)

/-- The bytes of the header, with `signatureV1` as the version. -/
def headerBytes (fds : List FieldDescriptor) : Bytes :=
  [0x00, 0x01, UInt8.ofNat fds.length] ++ fds.flatMap FieldDescriptor.marshalBinary

def writeToStream (fields : List FieldInfo) : StorageProg Unit :=
  .write (headerBytes (fields.map FieldInfo.descriptor)) 0

/-- `calculatePropsEnd`: where the properties that start at `currPos` end. -/
def calculatePropsEnd : ℕ → ℤ → StorageProg ℤ
  | 0, _ => .fail .panic
  | fuel + 1, currPos => do
    let buf ← read 1 currPos
    let tp := buf.headD 0
    let pos := currPos + 1
    if isScalar tp then return pos + 1
    else if isArray tp then calculatePropsEnd fuel (pos + 8)
    else if isSlice tp then calculatePropsEnd fuel pos
    else if isMap tp then do
      let pos ← calculatePropsEnd fuel pos
      calculatePropsEnd fuel pos
    else .fail .wrongType

/-- What `make` can allocate: 2^48 bytes. -/
def makeBytes (n : ℕ) : StorageProg Unit := if 2 ^ 48 < n then .fail .panic else return ()

/-- One field of the header at `pos`, and where it ends.  A read beyond the storage panics,
    so the properties end within it. -/
def readDescriptor (pos : ℤ) : StorageProg (FieldDescriptor × ℤ) := do
  let uint8Buf ← read 1 pos
  let nameLen := uint8Buf.headD 0
  let nameBuf ← read nameLen.toNat (pos + 1)
  let pos := pos + 1 + nameLen.toNat
  let propsEnd ← calculatePropsEnd (storageSize + 1) pos
  let fieldSize := (propsEnd - pos).toNat % 2 ^ 64
  makeBytes ((1 + nameBuf.length + fieldSize) % 2 ^ 64)
  let fieldBuf ← read fieldSize pos
  let descriptor ← .ofExcept (FieldDescriptor.unmarshalBinary (nameLen :: (nameBuf ++ fieldBuf)))
  return (descriptor, pos + fieldSize)

/-- The loop of `ReadFromStream` over the fields. -/
def readDescriptors : ℕ → ℤ → StorageProg (List FieldDescriptor × ℤ)
  | 0, pos => return ([], pos)
  | count + 1, pos => do
    let (fd, pos) ← readDescriptor pos
    let (fds, pos) ← readDescriptors count pos
    return (fd :: fds, pos)

/-- `ReadFromStream`; the version is not checked. -/
def readFromStream : StorageProg (List FieldInfo) := do
  let _ ← read 2 0
  let countBuf ← read 1 2
  let (fds, pos) ← readDescriptors (countBuf.headD 0).toNat 3
  return fieldsWithOffset (UInt64.ofNat pos.toNat) fds

end Gwat.Token
