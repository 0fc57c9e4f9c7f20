import VerifiedLedger.Format.Record
import VerifiedLedger.Format.Variant
import VerifiedLedger.Format.Collection
import VerifiedLedger.Format.Hex
import VerifiedLedger.Proofs.Bytes.LittleEndian
import VerifiedLedger.Proofs.Bytes.OrderedMap
import VerifiedLedger.Proofs.Bytes.Utf8
import VerifiedLedger.Proofs.Checks
/-! # Values read back

Bytes that a format writes are read back as the value, and what follows them is left alone. Each way
to make a format out of others passes this on. It is a statement about one value, because a list
reads back only if its length can be written in eight bytes.
-/
namespace VerifiedLedger
variable {α β σ : Type}

/-- The decoder takes exactly these bytes, whatever follows, and gives the value. -/
def Reads (decode : Decoder α) (bytes : List UInt8) (a : α) : Prop :=
  ∀ rest, decode (bytes ++ rest) = .ok (a, rest)

namespace Reads
variable {decode : Decoder α} {first second : List UInt8} {a : α} {b : β}

theorem bind (next : α → Decoder β) (ha : Reads decode first a) (hb : Reads (next a) second b) :
    Reads (fun bytes => decode bytes >>= fun read => next read.1 read.2) (first ++ second) b := by
  intro rest
  rw [List.append_assoc]
  simp only [ha (second ++ rest), bind_eq_ok_iff, Except.ok.injEq, exists_eq_left']
  exact hb rest

theorem map (f : α → β) (ha : Reads decode first a) :
    Reads (fun bytes => decode bytes >>= fun read => return (f read.1, read.2)) first (f a) := by
  intro rest
  simp only [ha rest, bind_eq_ok_iff, Except.ok.injEq, exists_eq_left']
  rfl

theorem both {decode' : Decoder β} (f : α → β → σ) (ha : Reads decode first a)
    (hb : Reads decode' second b) :
    Reads (fun bytes => decode bytes >>= fun read => decode' read.2 >>= fun read' =>
      return (f read.1 read'.1, read'.2)) (first ++ second) (f a b) :=
  ha.bind (fun a rest => decode' rest >>= fun read => return (f a read.1, read.2)) (hb.map (f a))

end Reads

namespace Format
variable {f : Format α} {g : Format β} {a : α} {b : β}

def ReadsBack (f : Format α) (a : α) : Prop := Reads f.decode (f.encode a) a

theorem ofBytes_eq_ok_iff {bytes : List UInt8} :
    f.ofBytes bytes = .ok a ↔ ∃ rest, f.decode bytes = .ok (a, rest) := by
  rw [ofBytes, map_eq_ok_iff]
  constructor
  · rintro ⟨⟨a, rest⟩, h, rfl⟩
    exact ⟨rest, h⟩
  · rintro ⟨rest, h⟩
    exact ⟨_, h, rfl⟩

theorem ReadsBack.ofBytes_encode (h : f.ReadsBack a) : f.ofBytes (f.encode a) = .ok a := by
  have hread := h []
  rw [List.append_nil] at hread
  exact ofBytes_eq_ok_iff.2 ⟨[], hread⟩

/-- What follows a value that reads back begins where the value ends. -/
theorem ReadsBack.append_inj {a a' : α} {rest rest' : List UInt8} (ha : f.ReadsBack a)
    (ha' : f.ReadsBack a') (h : f.encode a ++ rest = f.encode a' ++ rest') :
    a = a' ∧ rest = rest' := by
  have hread := ha rest
  rw [h, ha' rest'] at hread
  cases hread
  exact ⟨rfl, rfl⟩

/-- Two values that read back are written apart. -/
theorem ReadsBack.eq_of_encode_eq {a a' : α} (ha : f.ReadsBack a) (ha' : f.ReadsBack a')
    (h : f.encode a = f.encode a') : a = a' :=
  (ha.append_inj ha' (congrArg (· ++ []) h)).1

theorem eq_of_map_encode_eq {as as' : List α} (ha : ∀ a ∈ as, f.ReadsBack a)
    (ha' : ∀ a ∈ as', f.ReadsBack a) (h : as.map f.encode = as'.map f.encode) : as = as' := by
  induction as generalizing as' with
  | nil => exact (List.map_eq_nil_iff.1 h.symm).symm
  | cons a as ih =>
    cases as' with
    | nil => cases h
    | cons a' as' =>
      obtain ⟨hhead, htail⟩ := List.cons_eq_cons.1 h
      have hsame := (ha a List.mem_cons_self).eq_of_encode_eq (ha' a' List.mem_cons_self) hhead
      have hrest := ih (fun b hb => ha b (List.mem_cons_of_mem a hb))
        (fun b hb => ha' b (List.mem_cons_of_mem a' hb)) htail
      rw [hsame, hrest]

/-- A written value is found at the place where the value itself is. -/
theorem getElem?_of_map_encode {as : List α} {index : ℕ} (has : ∀ a ∈ as, f.ReadsBack a)
    (ha : f.ReadsBack a) (h : (as.map f.encode)[index]? = some (f.encode a)) :
    as[index]? = some a := by
  rw [List.getElem?_map] at h
  obtain ⟨found, hfound, hencode⟩ := Option.map_eq_some_iff.1 h
  have hsame := (has found (List.mem_of_getElem? hfound)).eq_of_encode_eq ha hencode
  rw [hfound, hsame]

theorem reads_decodeNat {width n : ℕ} (h : n < 256 ^ width) :
    Reads (decodeNat width) (Bytes.littleEndian width n) n := by
  intro rest
  have htake : (Bytes.littleEndian width n ++ rest).take width = Bytes.littleEndian width n :=
    List.take_left' (Bytes.length_littleEndian width n)
  have hdrop : (Bytes.littleEndian width n ++ rest).drop width = rest :=
    List.drop_left' (Bytes.length_littleEndian width n)
  simp only [decodeNat, takeBytes, htake, hdrop, Bytes.length_littleEndian, if_true]
  simp only [bind, Except.bind, pure, Except.pure, Bytes.ofLittleEndian_littleEndian,
    Nat.mod_eq_of_lt h]

theorem reads_takeBytes (bytes : List UInt8) : Reads (takeBytes bytes.length) bytes bytes := by
  intro rest
  have htake : (bytes ++ rest).take bytes.length = bytes := List.take_left' rfl
  have hdrop : (bytes ++ rest).drop bytes.length = rest := List.drop_left' rfl
  simp only [takeBytes, htake, hdrop, if_true]

theorem reads_takeFixed {n : ℕ} (bytes : FixedBytes n) :
    Reads (takeFixed n) bytes.toList bytes := by
  intro rest
  have htake : (bytes.toList ++ rest).take n = bytes.toList := List.take_left' bytes.length_toList
  have hdrop : (bytes.toList ++ rest).drop n = rest := List.drop_left' bytes.length_toList
  simp only [takeFixed, htake, hdrop, bytes.length_toList, dif_pos]

theorem readsBack_byte (b : UInt8) : byte.ReadsBack b := fun _ => rfl

theorem readsBack_word (w : UInt64) : word.ReadsBack w := by
  have hw : w.toNat < 256 ^ 8 := w.toNat_lt
  have h := (reads_decodeNat hw).map UInt64.ofNat
  rwa [UInt64.ofNat_toNat] at h

theorem readsBack_bool (b : Bool) : bool.ReadsBack b := by
  cases b with
  | false => exact fun _ => rfl
  | true => exact fun _ => rfl

theorem readsBack_text {s : String} (h : (Utf8.encode s).length < UInt64.size) :
    text.ReadsBack s := by
  have hlength : Reads (decodeNat 8) (encodeLength (Utf8.encode s).length) _ := reads_decodeNat h
  have hdecode : Utf8.decode (Utf8.encode s) = .ok s := Utf8.decode_eq_ok_iff.2 rfl
  intro rest
  rw [text, List.append_assoc]
  simp only [hlength (Utf8.encode s ++ rest), bind_eq_ok_iff, Except.ok.injEq, exists_eq_left',
    reads_takeBytes (Utf8.encode s) rest, hdecode]
  rfl

theorem ReadsBack.refine {accept : α → Except String β} {forget : β → α}
    (haccept : accept (forget b) = .ok b) (h : f.ReadsBack (forget b)) :
    (f.refine accept forget).ReadsBack b := by
  intro rest
  rw [Format.refine]
  simp only [h rest, bind_eq_ok_iff, Except.ok.injEq, exists_eq_left', haccept]
  rfl

theorem ReadsBack.delay {f : Unit → Format α} (h : (f ()).ReadsBack a) : (delay f).ReadsBack a := h

theorem ReadsBack.map {wrap : α → β} {unwrap : β → α} (hwrap : wrap (unwrap b) = b)
    (h : f.ReadsBack (unwrap b)) : (f.map wrap unwrap).ReadsBack b := by
  have hread := Reads.map wrap h
  rwa [hwrap] at hread

section Collections

theorem reads_decodeMany {as : List α} (h : ∀ a ∈ as, f.ReadsBack a) :
    Reads (decodeMany f.decode as.length) (as.flatMap f.encode) as := by
  induction as with
  | nil => exact fun _ => rfl
  | cons a as ih =>
    rw [List.flatMap_cons]
    have has := ih fun b hb => h b (List.mem_cons_of_mem a hb)
    exact (h a List.mem_cons_self).both List.cons has

theorem ReadsBack.list {as : List α} (hlength : as.length < UInt64.size)
    (h : ∀ a ∈ as, f.ReadsBack a) : (list f).ReadsBack as :=
  Reads.bind (decodeMany f.decode) (reads_decodeNat hlength) (reads_decodeMany h)

theorem readsBack_bytes {bytes : List UInt8} (h : bytes.length < UInt64.size) :
    Format.bytes.ReadsBack bytes :=
  .list h fun b _ => readsBack_byte b

theorem ReadsBack.pair (ha : f.ReadsBack a) (hb : g.ReadsBack b) : (pair f g).ReadsBack (a, b) :=
  Reads.both Prod.mk ha hb

theorem ReadsBack.option {o : Option α} (h : ∀ a ∈ o, f.ReadsBack a) :
    (option f).ReadsBack o := by
  cases o with
  | none => exact fun _ => rfl
  | some a => exact Reads.map Option.some (h a rfl)

/-- The entries stand in key order, so that reading them one by one gives the same map. -/
theorem ReadsBack.orderedMap {κ : Type} [ByteKey κ] {key : Format κ} {m : OrderedMap κ β}
    (h : (Format.list (Format.pair key g)).ReadsBack m.entries) :
    (Format.orderedMap key g).ReadsBack m := by
  have hread := Reads.map OrderedMap.ofList h
  rwa [OrderedMap.ofList_entries] at hread

end Collections

end Format

namespace Fields
open Format (ReadsBack)
variable {fields : Fields α} {f : Format α} {rest : Fields β} {rule : FieldRule α} {name : String}
  {a : α} {b : β}

def ReadsBack (fields : Fields α) (a : α) : Prop := Reads fields.decode (fields.encode a) a

theorem encode_last (hrule : rule.skips a = false) : (last name rule f).encode a = f.encode a :=
  if_neg (Bool.eq_false_iff.1 hrule)

theorem encode_field (hrule : rule.skips a = false) :
    (field name rule f rest).encode (a, b) = f.encode a ++ rest.encode b :=
  congrArg (· ++ rest.encode b) (if_neg (Bool.eq_false_iff.1 hrule))

theorem ReadsBack.last (hrule : rule.skips a = false) (h : f.ReadsBack a) :
    (last name rule f).ReadsBack a := by
  rw [Fields.ReadsBack, encode_last hrule]
  exact h

theorem ReadsBack.field (hrule : rule.skips a = false) (ha : f.ReadsBack a)
    (hb : rest.ReadsBack b) : (field name rule f rest).ReadsBack (a, b) := by
  rw [Fields.ReadsBack, encode_field hrule]
  exact Reads.both Prod.mk ha hb

end Fields

theorem Format.ReadsBack.record {fields : Fields α} {split : σ → α} {join : α → σ} {s : σ}
    (hjoin : join (split s) = s) (h : fields.ReadsBack (split s)) :
    (fields.record split join).ReadsBack s := by
  have hread := Reads.map join h
  rwa [hjoin] at hread

namespace Variants
variable {variants : Variants α} {others : Variants β} {f : Format α} {name : String} {a : α}
  {b : β}

/-- The variant that the value has is found at its place, and its data read back. -/
def ReadsBack (variants : Variants α) (a : α) : Prop :=
  ∃ place < variants.count, ∃ decode body, variants.decodeAt place = some decode ∧
    (∀ index, variants.encode index a = encodeIndex (index + place) ++ body) ∧ Reads decode body a

theorem ReadsBack.last (h : f.ReadsBack a) : (last name f).ReadsBack a :=
  ⟨0, Nat.zero_lt_one, f.decode, f.encode a, rfl, fun _ => rfl, h⟩

theorem readsBack_lastBare : (lastBare name).ReadsBack () :=
  ⟨0, Nat.zero_lt_one, _, [], rfl, fun _ => (List.append_nil _).symm, fun _ => rfl⟩

theorem ReadsBack.inl (h : variants.ReadsBack a) :
    (variants.orElse others).ReadsBack (.inl a) := by
  obtain ⟨place, hplace, decode, body, hat, hencode, hread⟩ := h
  have hat' : (variants.orElse others).decodeAt place = (variants.decodeAt place).map _ :=
    if_pos hplace
  rw [hat] at hat'
  exact ⟨place, Nat.lt_add_right _ hplace, _, body, hat', hencode, hread.map Sum.inl⟩

theorem ReadsBack.inr (h : others.ReadsBack b) :
    (variants.orElse others).ReadsBack (.inr b) := by
  obtain ⟨place, hplace, decode, body, hat, hencode, hread⟩ := h
  have hat' : (variants.orElse others).decodeAt (variants.count + place) =
      (others.decodeAt (variants.count + place - variants.count)).map _ :=
    if_neg (Nat.not_lt.2 (Nat.le_add_right _ _))
  rw [Nat.add_sub_cancel_left, hat] at hat'
  refine ⟨variants.count + place, Nat.add_lt_add_left hplace _, _, body, hat', ?_,
    hread.map Sum.inr⟩
  intro index
  rw [← Nat.add_assoc]
  exact hencode _

end Variants

theorem Format.ReadsBack.variants {variants : Variants α} {split : σ → α} {join : α → σ} {s : σ}
    (hcount : variants.count ≤ UInt32.size) (hjoin : join (split s) = s)
    (h : variants.ReadsBack (split s)) : (variants.format split join).ReadsBack s := by
  obtain ⟨place, hplace, decode, body, hat, hencode, hread⟩ := h
  have hindex : Reads (Format.decodeNat 4) (Variants.encodeIndex place) place :=
    Format.reads_decodeNat (Nat.lt_of_lt_of_le hplace hcount)
  have hdata := hread.map join
  rw [hjoin] at hdata
  intro rest
  have hbytes : (variants.format split join).encode s = Variants.encodeIndex place ++ body := by
    have h := hencode 0
    rwa [Nat.zero_add] at h
  rw [hbytes, List.append_assoc]
  simp only [Variants.format, hindex (body ++ rest), bind_eq_ok_iff, Except.ok.injEq,
    exists_eq_left', hat]
  exact bind_eq_ok_iff.1 (hdata rest)

end VerifiedLedger
