import VerifiedLedger.Proofs.Format.ReadBack
/-! # Values with one written form

Whatever bytes a value is read from, they are those that are written for it and what follows them.
Each way to make a format out of others passes this on, with a property of the values that are
read: no list that is read is too long to be written.
-/
namespace VerifiedLedger
variable {α β σ : Type}

/-- Bytes that are read are the written value and the rest; the values that are read satisfy `P`. -/
def OneForm (encode : α → List UInt8) (decode : Decoder α) (P : α → Prop) : Prop :=
  ∀ ⦃bytes a rest⦄, decode bytes = .ok (a, rest) → encode a ++ rest = bytes ∧ P a

namespace OneForm
variable {encode : α → List UInt8} {encode' : β → List UInt8} {decode : Decoder α}
  {decode' : Decoder β} {P : α → Prop} {Q : β → Prop}

theorem map (wrap : α → β) (unwrap : β → α) (hunwrap : ∀ a, unwrap (wrap a) = a)
    (hfits : ∀ a, P a → Q (wrap a)) (h : OneForm encode decode P) :
    OneForm (fun b => encode (unwrap b))
      (fun bytes => decode bytes >>= fun read => return (wrap read.1, read.2)) Q := by
  intro bytes b rest hread
  simp only [bind_eq_ok_iff, pure_eq_ok_iff, Prod.mk.injEq] at hread
  obtain ⟨⟨a, tail⟩, ha, rfl, rfl⟩ := hread
  obtain ⟨hbytes, hP⟩ := h ha
  refine ⟨?_, hfits a hP⟩
  rw [← hbytes]
  exact congrArg (fun a => encode a ++ tail) (hunwrap a)

theorem both (ha : OneForm encode decode P) (hb : OneForm encode' decode' Q) :
    OneForm (fun ab => encode ab.1 ++ encode' ab.2)
      (fun bytes => decode bytes >>= fun read => decode' read.2 >>= fun read' =>
        return ((read.1, read'.1), read'.2)) fun ab => P ab.1 ∧ Q ab.2 := by
  intro bytes ab rest hread
  simp only [bind_eq_ok_iff, pure_eq_ok_iff, Prod.mk.injEq] at hread
  obtain ⟨⟨a, tail⟩, hfirst, ⟨b, after⟩, hsecond, rfl, rfl⟩ := hread
  obtain ⟨rfl, hP⟩ := ha hfirst
  obtain ⟨rfl, hQ⟩ := hb hsecond
  exact ⟨List.append_assoc _ _ _, hP, hQ⟩

end OneForm

namespace Format
variable {f : Format α} {g : Format β} {P : α → Prop} {Q : β → Prop}

def Canonical (f : Format α) (P : α → Prop) : Prop := OneForm f.encode f.decode P

/-- Nothing is read from a beginning of what is written for a value, unless it is all of it. -/
theorem Canonical.eq_nil_of_decode (h : f.Canonical P) (hback : ∀ a, P a → f.ReadsBack a) {a b : α}
    (ha : f.ReadsBack a) {front rest tail : List UInt8} (hfront : front ++ rest = f.encode a)
    (hread : f.decode front = .ok (b, tail)) : rest = [] := by
  obtain ⟨rfl, hP⟩ := h hread
  have hwhole := ha []
  rw [List.append_nil, ← hfront, List.append_assoc, hback b hP (tail ++ rest)] at hwhole
  exact (List.append_eq_nil_iff.1 (Prod.mk.inj (Except.ok.inj hwhole)).2).2

theorem append_eq_of_takeBytes {n : ℕ} {bytes front rest : List UInt8}
    (h : takeBytes n bytes = .ok (front, rest)) : front ++ rest = bytes ∧ front.length = n := by
  rw [takeBytes] at h
  split_ifs at h with hlength
  cases h
  exact ⟨List.take_append_drop n bytes, hlength⟩

theorem append_eq_of_takeFixed {n : ℕ} {bytes rest : List UInt8} {fixed : FixedBytes n}
    (h : takeFixed n bytes = .ok (fixed, rest)) : fixed.toList ++ rest = bytes := by
  rw [takeFixed] at h
  split_ifs at h with hlength
  cases h
  exact List.take_append_drop n bytes

theorem append_eq_of_decodeNat {width n : ℕ} {bytes rest : List UInt8}
    (h : decodeNat width bytes = .ok (n, rest)) :
    Bytes.littleEndian width n ++ rest = bytes ∧ n < 256 ^ width := by
  simp only [decodeNat, bind_eq_ok_iff, pure_eq_ok_iff, Prod.mk.injEq] at h
  obtain ⟨⟨front, tail⟩, hfront, rfl, rfl⟩ := h
  obtain ⟨rfl, rfl⟩ := append_eq_of_takeBytes hfront
  exact ⟨by rw [Bytes.littleEndian_ofLittleEndian], Bytes.ofLittleEndian_lt front⟩

theorem canonical_byte : byte.Canonical fun _ => True := by
  intro bytes b rest h
  cases bytes with
  | nil => cases h
  | cons first others =>
    cases h
    exact ⟨rfl, trivial⟩

theorem canonical_word : word.Canonical fun _ => True := by
  intro bytes w rest h
  simp only [word, bind_eq_ok_iff, pure_eq_ok_iff, Prod.mk.injEq] at h
  obtain ⟨⟨n, tail⟩, hn, rfl, rfl⟩ := h
  obtain ⟨hbytes, hlt⟩ := append_eq_of_decodeNat hn
  have hword : (UInt64.ofNat n).toNat = n := UInt64.toNat_ofNat_of_lt' hlt
  simp only [word, hword]
  exact ⟨hbytes, trivial⟩

theorem canonical_bool : bool.Canonical fun _ => True := by
  intro bytes b rest h
  cases bytes with
  | nil => cases h
  | cons tag others =>
    simp only [bool] at h
    split_ifs at h with hzero hone
    · cases h
      exact ⟨congrArg (· :: rest) hzero.symm, trivial⟩
    · cases h
      exact ⟨congrArg (· :: rest) hone.symm, trivial⟩

theorem canonical_text : text.Canonical fun s => (Utf8.encode s).length < UInt64.size := by
  intro bytes s rest h
  simp only [text, bind_eq_ok_iff] at h
  obtain ⟨⟨n, tail⟩, hn, h⟩ := h
  obtain ⟨rfl, hlt⟩ := append_eq_of_decodeNat hn
  split at h
  · cases h
  · rename_i front after hfront
    obtain ⟨rfl, rfl⟩ := append_eq_of_takeBytes hfront
    split at h
    · rename_i read hread
      cases h
      simp only [text, Utf8.decode_eq_ok_iff.1 hread]
      exact ⟨List.append_assoc _ _ _, hlt⟩
    · cases h

theorem Canonical.map {wrap : α → β} {unwrap : β → α} (hunwrap : ∀ a, unwrap (wrap a) = a)
    (hfits : ∀ a, P a → Q (wrap a)) (h : f.Canonical P) : (f.map wrap unwrap).Canonical Q :=
  OneForm.map wrap unwrap hunwrap hfits h

theorem Canonical.delay {f : Unit → Format α} (h : (f ()).Canonical P) : (delay f).Canonical P := h

section Collections

theorem Canonical.decodeMany (h : f.Canonical P) {n : ℕ} {bytes rest : List UInt8} {as : List α}
    (hread : Format.decodeMany f.decode n bytes = .ok (as, rest)) :
    as.flatMap f.encode ++ rest = bytes ∧ as.length = n ∧ ∀ a ∈ as, P a := by
  induction n generalizing bytes as with
  | zero =>
    cases hread
    exact ⟨rfl, rfl, nofun⟩
  | succ n ih =>
    simp only [Format.decodeMany, bind_eq_ok_iff, pure_eq_ok_iff, Prod.mk.injEq] at hread
    obtain ⟨⟨a, tail⟩, ha, ⟨others, after⟩, hothers, rfl, rfl⟩ := hread
    obtain ⟨rfl, hP⟩ := h ha
    obtain ⟨rfl, rfl, hall⟩ := ih hothers
    refine ⟨?_, rfl, List.forall_mem_cons.2 ⟨hP, hall⟩⟩
    rw [List.flatMap_cons, List.append_assoc]

theorem Canonical.list (h : f.Canonical P) :
    (list f).Canonical fun as => as.length < UInt64.size ∧ ∀ a ∈ as, P a := by
  intro bytes as rest hread
  simp only [Format.list, bind_eq_ok_iff] at hread
  obtain ⟨⟨n, tail⟩, hn, hmany⟩ := hread
  obtain ⟨rfl, hlt⟩ := append_eq_of_decodeNat hn
  obtain ⟨rfl, rfl, hall⟩ := h.decodeMany hmany
  exact ⟨List.append_assoc _ _ _, hlt, hall⟩

theorem canonical_bytes : Format.bytes.Canonical fun bytes => bytes.length < UInt64.size :=
  fun _ _ _ hread => (canonical_byte.list hread).imp_right And.left

theorem Canonical.option (h : f.Canonical P) : (option f).Canonical fun o => ∀ a ∈ o, P a := by
  intro bytes o rest hread
  cases bytes with
  | nil => cases hread
  | cons tag others =>
    simp only [Format.option] at hread
    split_ifs at hread with hzero hone
    · cases hread
      exact ⟨congrArg (· :: rest) hzero.symm, nofun⟩
    · simp only [bind_eq_ok_iff, pure_eq_ok_iff, Prod.mk.injEq] at hread
      obtain ⟨⟨a, tail⟩, ha, rfl, rfl⟩ := hread
      obtain ⟨rfl, hP⟩ := h ha
      refine ⟨congrArg (· :: (f.encode a ++ tail)) hone.symm, ?_⟩
      rintro _ ⟨⟩
      exact hP

theorem Canonical.pair (hf : f.Canonical P) (hg : g.Canonical Q) :
    (pair f g).Canonical fun ab => P ab.1 ∧ Q ab.2 :=
  OneForm.both hf hg

end Collections

end Format

namespace Fields
variable {fields : Fields α} {f : Format α} {rest : Fields β} {rule : FieldRule α} {name : String}
  {P : α → Prop} {Q : β → Prop}

def Canonical (fields : Fields α) (P : α → Prop) : Prop := OneForm fields.encode fields.decode P

theorem encodeField_eq (hrule : ∀ a, rule.skips a = false) : encodeField rule f = f.encode :=
  funext fun a => if_neg (Bool.eq_false_iff.1 (hrule a))

/-- A field has one form if it is written always. -/
theorem Canonical.last (hrule : ∀ a, rule.skips a = false) (h : f.Canonical P) :
    (last name rule f).Canonical P := by
  rw [Fields.Canonical, Fields.last, encodeField_eq hrule]
  exact h

theorem Canonical.field (hrule : ∀ a, rule.skips a = false) (hf : f.Canonical P)
    (hrest : rest.Canonical Q) :
    (field name rule f rest).Canonical fun ab => P ab.1 ∧ Q ab.2 := by
  rw [Fields.Canonical, Fields.field, encodeField_eq hrule]
  exact OneForm.both hf hrest

end Fields

theorem Format.Canonical.record {fields : Fields α} {split : σ → α} {join : α → σ} {P : α → Prop}
    {Q : σ → Prop} (hsplit : ∀ a, split (join a) = a) (hfits : ∀ a, P a → Q (join a))
    (h : fields.Canonical P) : (fields.record split join).Canonical Q :=
  OneForm.map join split hsplit hfits h

namespace Variants
variable {variants : Variants α} {others : Variants β} {f : Format α} {name : String}
  {P : α → Prop} {Q : β → Prop}

/-- The data at a place are written behind the index of that place. -/
def Canonical (variants : Variants α) (P : α → Prop) : Prop :=
  ∀ ⦃place decode bytes a rest⦄, variants.decodeAt place = some decode →
    decode bytes = .ok (a, rest) →
    (∀ index, variants.encode index a ++ rest = encodeIndex (index + place) ++ bytes) ∧ P a

theorem Canonical.last (h : f.Canonical P) : (last name f).Canonical P := by
  intro place decode bytes a rest hat hread
  cases place with
  | zero =>
    cases hat
    obtain ⟨rfl, hP⟩ := h hread
    exact ⟨fun _ => List.append_assoc _ _ _, hP⟩
  | succ place => cases hat

theorem canonical_lastBare : (lastBare name).Canonical fun _ => True := by
  intro place decode bytes a rest hat hread
  cases place with
  | zero =>
    cases hat
    cases hread
    exact ⟨fun _ => rfl, trivial⟩
  | succ place => cases hat

theorem Canonical.orElse (hfirst : variants.Canonical P) (hrest : others.Canonical Q) :
    (variants.orElse others).Canonical (Sum.elim P Q) := by
  intro place decode bytes a rest hat hread
  rw [Variants.orElse] at hat
  dsimp only at hat
  split_ifs at hat with hplace
  · obtain ⟨decode, hdata, rfl⟩ := Option.map_eq_some_iff.1 hat
    simp only [bind_eq_ok_iff, pure_eq_ok_iff, Prod.mk.injEq] at hread
    obtain ⟨⟨a, tail⟩, ha, rfl, rfl⟩ := hread
    exact hfirst hdata ha
  · obtain ⟨decode, hdata, rfl⟩ := Option.map_eq_some_iff.1 hat
    simp only [bind_eq_ok_iff, pure_eq_ok_iff, Prod.mk.injEq] at hread
    obtain ⟨⟨b, tail⟩, hb, rfl, rfl⟩ := hread
    obtain ⟨hencode, hQ⟩ := hrest hdata hb
    -- The later variants count from the end of the first ones.
    refine ⟨fun index => ?_, hQ⟩
    have hindex : index + variants.count + (place - variants.count) = index + place := by omega
    rw [← hindex]
    exact hencode _

end Variants

theorem Format.Canonical.variants {variants : Variants α} {split : σ → α} {join : α → σ}
    {P : α → Prop} {Q : σ → Prop} (hsplit : ∀ a, split (join a) = a)
    (hfits : ∀ a, P a → Q (join a)) (h : variants.Canonical P) :
    (variants.format split join).Canonical Q := by
  intro bytes s rest hread
  simp only [Variants.format, bind_eq_ok_iff] at hread
  obtain ⟨⟨place, tail⟩, hplace, hread⟩ := hread
  obtain ⟨rfl, -⟩ := append_eq_of_decodeNat hplace
  split at hread
  · cases hread
  · rename_i decode hat
    simp only [bind_eq_ok_iff, pure_eq_ok_iff, Prod.mk.injEq] at hread
    obtain ⟨⟨a, after⟩, ha, rfl, rfl⟩ := hread
    obtain ⟨hencode, hP⟩ := h hat ha
    have hzero := hencode 0
    rw [Nat.zero_add] at hzero
    simp only [Variants.format, hsplit]
    exact ⟨hzero, hfits a hP⟩

end VerifiedLedger
