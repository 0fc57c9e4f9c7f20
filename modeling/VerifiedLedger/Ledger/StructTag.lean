import VerifiedLedger.Ledger.Address
import VerifiedLedger.Format.Record
import VerifiedLedger.Format.Variant
/-! # Struct tags and access paths

A struct tag names a resource type: the account and the module that publish it, its name and its
type arguments, which may be struct tags again. The tag's hash, behind a marker byte, is the path of
the resource inside every account that holds one.
-/
namespace VerifiedLedger

mutual

inductive TypeTag where
  | bool
  | u8
  | u64
  | u128
  | address
  | vector (element : TypeTag)
  | struct (tag : StructTag)

inductive StructTag where
  | mk (address : Address) (moduleName name : String) (typeParams : List TypeTag)

end

mutual

/-- How many type tags are nested in one another, itself included. -/
def TypeTag.depth : TypeTag → Nat
  | .vector element => element.depth + 1
  | .struct tag => tag.depth + 1
  | _ => 1

def StructTag.depth : StructTag → Nat
  | .mk _ _ _ typeParams => depthOfAll typeParams

def depthOfAll : List TypeTag → Nat
  | [] => 0
  | tag :: tags => max tag.depth (depthOfAll tags)

end

namespace StructTag

def formatOver (param : Format TypeTag) : Format StructTag :=
  (Fields.field "address" .required Address.format <|
    .field "module" .required .text <|
    .field "name" .required .text <|
    .last "type_params" .required (.list param)).record
    (fun | .mk address moduleName name typeParams => (address, moduleName, name, typeParams))
    (fun (address, moduleName, name, typeParams) => .mk address moduleName name typeParams)

end StructTag

namespace TypeTag

/-- The format of type tags nested at most `depth` deep. -/
def formatAt : (depth : Nat) → Format TypeTag
  | 0 => .refuse
  | depth + 1 =>
    (Variants.bare "Bool" <| .bare "U8" <| .bare "U64" <| .bare "U128" <| .bare "Address" <|
      .data "Vector" (.delay fun _ => formatAt depth) <|
      .last "Struct" (StructTag.formatOver (.delay fun _ => formatAt depth))).format
      (fun
        | .bool => .inl ()
        | .u8 => .inr (.inl ())
        | .u64 => .inr (.inr (.inl ()))
        | .u128 => .inr (.inr (.inr (.inl ())))
        | .address => .inr (.inr (.inr (.inr (.inl ()))))
        | .vector element => .inr (.inr (.inr (.inr (.inr (.inl element)))))
        | .struct tag => .inr (.inr (.inr (.inr (.inr (.inr tag))))))
      (fun
        | .inl () => .bool
        | .inr (.inl ()) => .u8
        | .inr (.inr (.inl ())) => .u64
        | .inr (.inr (.inr (.inl ()))) => .u128
        | .inr (.inr (.inr (.inr (.inl ())))) => .address
        | .inr (.inr (.inr (.inr (.inr (.inl element))))) => .vector element
        | .inr (.inr (.inr (.inr (.inr (.inr tag))))) => .struct tag)

/-- Every level of nesting takes bytes when it is read as bytes, and budget when it is read as
JSON, so the input bounds the depth. -/
def format : Format TypeTag where
  encode t := (formatAt t.depth).encode t
  decode bytes := (formatAt (bytes.length + 1)).decode bytes
  toJson t := (formatAt t.depth).toJson t
  ofJson budget j := (formatAt (budget + 1)).ofJson budget j

end TypeTag

namespace StructTag

def format : Format StructTag where
  encode t := (formatOver (TypeTag.formatAt t.depth)).encode t
  decode bytes := (formatOver (TypeTag.formatAt (bytes.length + 1))).decode bytes
  toJson t := (formatOver (TypeTag.formatAt t.depth)).toJson t
  ofJson budget j := (formatOver (TypeTag.formatAt (budget + 1))).ofJson budget j

def hash (t : StructTag) : Digest := format.hash .structTag t

def codeMarker : UInt8 := 0

def resourceMarker : UInt8 := 1

def resourcePath (t : StructTag) : List UInt8 := resourceMarker :: t.hash.toList

def account : StructTag := .mk .zero "LibraAccount" "T" []

end StructTag

structure AccessPath where
  address : Address
  path : List UInt8
deriving DecidableEq

namespace AccessPath

def resource (address : Address) (tag : StructTag) : AccessPath := ⟨address, tag.resourcePath⟩

def format : Format AccessPath :=
  (Fields.field "address" .required Address.format <| .last "path" .required .bytes).record
    (fun a => (a.address, a.path)) (fun (address, path) => ⟨address, path⟩)

def hash (a : AccessPath) : Digest := format.hash .accessPath a

end AccessPath
end VerifiedLedger
