import Mathlib.Data.List.DropRight
import VerifiedLedger.Format.Basic
/-! # Hashing in pieces

A hasher takes its data piece by piece, may be reset, and has a digest after every step. It always
holds the seed and what came since the last reset, so that its digest is that of those bytes hashed
at once. An encoder that writes a record into a hasher in pieces ends in the record's hash.
-/
namespace VerifiedLedger

/-- The digest of bytes that are given as a whole. -/
def Domain.hashAtOnce (d : Domain) (data : List UInt8) : Digest :=
  ((Hasher.start d).update data).finish

namespace Hasher

/-- One write takes all bytes and tells how many there were. -/
def write (h : Hasher) (data : List UInt8) : ℕ × Hasher := (data.length, h.update data)

/-- Writes until nothing is left, and fails if a write takes nothing. -/
def writeAll (h : Hasher) (data : List UInt8) : Option Hasher :=
  match data with
  | [] => some h
  | byte :: rest =>
    match h.write (byte :: rest) with
    | (0, _) => none
    | (taken + 1, next) => next.writeAll (rest.drop taken)
termination_by data.length
decreasing_by
  simp only [List.length_drop, List.length_cons]
  omega

/-- Hashes a record that its encoder writes in these pieces. -/
def hashPieces (d : Domain) (pieces : List (List UInt8)) : Option Digest :=
  finish <$> pieces.foldlM writeAll (start d)

inductive Step where
  | update (data : List UInt8)
  | write (data : List UInt8)
  | reset
deriving DecidableEq

def Step.data : Step → List UInt8
  | update data | write data => data
  | reset => []

def perform (h : Hasher) : Step → Hasher
  | .update data => h.update data
  | .write data => (h.write data).2
  | .reset => h.reset

/-- The digests after each of the steps. -/
def digests (h : Hasher) : List Step → List Digest
  | [] => []
  | s :: steps => (h.perform s).finish :: (h.perform s).digests steps

/-- The bytes given since the last reset, however they were cut. -/
def given (steps : List Step) : List UInt8 := (steps.rtakeWhile (· ≠ .reset)).flatMap Step.data

theorem given_append_reset (steps : List Step) : given (steps ++ [.reset]) = [] := by
  rw [given, List.rtakeWhile_concat_neg _ _ _ (by simp), List.flatMap_nil]

theorem given_append_of_ne {s : Step} (steps : List Step) (h : s ≠ .reset) :
    given (steps ++ [s]) = given steps ++ s.data := by
  rw [given, List.rtakeWhile_concat_pos _ _ _ (by simpa using h), List.flatMap_append,
    List.flatMap_singleton, given]

/-- The hasher has the seed and these bytes in it, and the seed alone to go back to. -/
structure Holds (d : Domain) (data : List UInt8) (h : Hasher) : Prop where
  seeded_eq : h.seeded = Keccak.Sponge.start.absorb d.seed.toList
  current_eq : h.current = Keccak.Sponge.start.absorb (d.preimage data)

variable {d : Domain} {data : List UInt8} {h : Hasher}

theorem holds_start (d : Domain) : Holds d [] (start d) where
  seeded_eq := rfl
  current_eq := by rw [Domain.preimage, List.append_nil, start]

namespace Holds

theorem update (hh : Holds d data h) (more : List UInt8) :
    Holds d (data ++ more) (h.update more) where
  seeded_eq := hh.seeded_eq
  current_eq := by
    rw [Hasher.update, hh.current_eq, Keccak.Sponge.absorb_absorb, Domain.preimage,
      List.append_assoc, ← Domain.preimage]

theorem reset (hh : Holds d data h) : Holds d [] h.reset where
  seeded_eq := hh.seeded_eq
  current_eq := by rw [Hasher.reset, hh.seeded_eq, Domain.preimage, List.append_nil]

theorem finish_eq (hh : Holds d data h) : h.finish = d.hash data := by
  rw [finish, hh.current_eq, Keccak.Sponge.finish_start_absorb, Domain.hash, sha3]

theorem perform {steps : List Step} (hh : Holds d (given steps) h) (s : Step) :
    Holds d (given (steps ++ [s])) (h.perform s) := by
  cases s with
  | update more =>
    rw [given_append_of_ne steps Step.noConfusion]
    exact hh.update more
  | write more =>
    rw [given_append_of_ne steps Step.noConfusion]
    exact hh.update more
  | reset =>
    rw [given_append_reset]
    exact hh.reset

/-- The first step taken off moves over to those that have been done. -/
theorem getElem?_digests (done : List Step) {steps : List Step} (hh : Holds d (given done) h)
    {i : ℕ} (hi : i < steps.length) :
    (h.digests steps)[i]? = some (d.hash (given (done ++ steps.take (i + 1)))) := by
  induction steps generalizing done h i with
  | nil => exact absurd hi (Nat.not_lt_zero i)
  | cons s steps ih =>
    have hnext := hh.perform s
    cases i with
    | zero => rw [digests, List.getElem?_cons_zero, hnext.finish_eq, List.take_succ_cons,
        List.take_zero]
    | succ i =>
      rw [digests, List.getElem?_cons_succ, ih _ hnext (Nat.lt_of_succ_lt_succ hi),
        List.append_assoc, List.singleton_append, List.take_succ_cons]

/-- Without bytes nothing is written at all; else one write takes them all. -/
theorem writeAll (hh : Holds d data h) (more : List UInt8) :
    ∃ next, h.writeAll more = some next ∧ Holds d (data ++ more) next := by
  cases more with
  | nil =>
    rw [List.append_nil, Hasher.writeAll]
    exact ⟨h, rfl, hh⟩
  | cons byte rest =>
    refine ⟨_, ?_, hh.update (byte :: rest)⟩
    rw [Hasher.writeAll, write, List.length_cons]
    simp only [List.drop_length, Hasher.writeAll]

theorem foldlM_writeAll (hh : Holds d data h) (pieces : List (List UInt8)) :
    ∃ next, pieces.foldlM Hasher.writeAll h = some next ∧
      Holds d (data ++ pieces.flatten) next := by
  induction pieces generalizing data h with
  | nil => exact ⟨h, rfl, by rwa [List.flatten_nil, List.append_nil]⟩
  | cons piece pieces ih =>
    obtain ⟨next, hnext, hheld⟩ := hh.writeAll piece
    obtain ⟨last, hlast, hall⟩ := ih hheld
    refine ⟨last, ?_, ?_⟩
    · rw [List.foldlM_cons, hnext]
      exact hlast
    · rwa [List.flatten_cons, ← List.append_assoc]

end Holds

theorem hashAtOnce_eq (d : Domain) (data : List UInt8) : d.hashAtOnce data = d.hash data :=
  ((holds_start d).update data).finish_eq

theorem length_digests (h : Hasher) (steps : List Step) :
    (h.digests steps).length = steps.length := by
  induction steps generalizing h with
  | nil => rfl
  | cons s steps ih => rw [digests, List.length_cons, List.length_cons, ih]

theorem hashPieces_eq (d : Domain) (pieces : List (List UInt8)) :
    hashPieces d pieces = some (d.hash pieces.flatten) := by
  obtain ⟨last, hlast, hheld⟩ := (holds_start d).foldlM_writeAll pieces
  rw [hashPieces, hlast, Option.map_eq_map, Option.map_some, hheld.finish_eq, List.nil_append]

/-- However bytes are cut and whatever was dropped before them, they have one digest. -/
theorem hash_of_pieces (d : Domain) :
    (∀ data, d.hashAtOnce data = d.hash data ∧
      d.hash data = sha3 ((sha3 (Utf8.encode d.tag ++ Utf8.encode Domain.suffix)).toList ++ data)) ∧
    (∀ steps : List Step, ((start d).digests steps).length = steps.length ∧
      ∀ i < steps.length,
        ((start d).digests steps)[i]? = some (d.hashAtOnce (given (steps.take (i + 1))))) ∧
    ∀ (α : Type) (f : Format α) (a : α) (pieces : List (List UInt8)),
      pieces.flatten = f.encode a →
        hashPieces d pieces = some (f.hash d a) ∧ f.hash d a = d.hashAtOnce (f.encode a) := by
  refine ⟨fun data => ⟨hashAtOnce_eq d data, ?_⟩,
    fun steps => ⟨length_digests _ _, fun i hi => ?_⟩, ?_⟩
  · rw [Domain.hash, Domain.preimage, Domain.seed, Domain.seedText]
  · rw [hashAtOnce_eq]
    exact (holds_start d).getElem?_digests [] hi
  · intro α f a pieces hpieces
    rw [hashPieces_eq, hpieces, hashAtOnce_eq]
    exact ⟨rfl, rfl⟩

/-- Bytes that a reset drops, an update without any, and a word that is written in five pieces. -/
theorem hash_of_pieces_after_reset :
    (((start .transactionInfo).digests
        [.update [1, 2], .reset, .write [3], .update [], .write [4, 5]])[4]? =
      some (Domain.transactionInfo.hashAtOnce [3, 4, 5])) ∧
    hashPieces .transactionInfo [[7], [], [0, 0, 0], [0], [0, 0, 0]] =
      some (Format.word.hash .transactionInfo 7) :=
  ⟨((hash_of_pieces .transactionInfo).2.1
      [.update [1, 2], .reset, .write [3], .update [], .write [4, 5]]).2 4 (by decide),
    ((hash_of_pieces .transactionInfo).2.2 UInt64 .word 7 [[7], [], [0, 0, 0], [0], [0, 0, 0]]
      (by decide)).1⟩

end Hasher
end VerifiedLedger
