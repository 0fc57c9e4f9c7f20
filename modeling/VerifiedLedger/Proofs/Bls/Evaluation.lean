import Mathlib.Data.Nat.Notation
import VerifiedLedger.Bls.Signature
/-! # Signatures worked out in a proof

Whoever checks a proof puts an argument off until it is looked at, and the state of a long loop grows
into an expression as long as the loop. Here every state is worked out before the next step. Nothing
else is changed, so that the outcome is that of the verifier.
-/
namespace VerifiedLedger

/-- Values that can be worked out before they are used. -/
class Strict (α : Type) where
  evaluate {β : Type} : α → (α → β) → β
  evaluate_eq {β : Type} (a : α) (use : α → β) : evaluate a use = use a

-- Not the class field itself, which would be opened before the definition that it is the body of.
def force {α β : Type} [Strict α] (a : α) (use : α → β) : β := Strict.evaluate a use

@[simp] theorem force_eq {α β : Type} [Strict α] (a : α) (use : α → β) : force a use = use a :=
  Strict.evaluate_eq a use

instance : Strict Nat where
  evaluate
    | 0, use => use 0
    | n + 1, use => use (n + 1)
  evaluate_eq n use := by
    cases n with
    | zero => rfl
    | succ n => rfl

section Containers
variable {α β γ : Type} [Strict α] [Strict β]

instance : Strict (α × β) where
  evaluate ab use := force ab.1 fun a => force ab.2 fun b => use (a, b)
  evaluate_eq ab use := by simp

def forceList : List α → (List α → γ) → γ
  | [], use => use []
  | a :: as, use => force a fun a => forceList as fun as => use (a :: as)

theorem forceList_eq (as : List α) (use : List α → γ) : forceList as use = use as := by
  induction as generalizing use with
  | nil => rfl
  | cons a as ih => simp [forceList, ih]

instance : Strict (List α) where
  evaluate := forceList
  evaluate_eq := forceList_eq

/-- A left fold that works out every state. -/
def loop (step : α → γ → α) : List γ → α → α
  | [], a => a
  | c :: cs, a => force (step a c) (loop step cs)

theorem loop_eq_foldl (step : α → γ → α) (cs : List γ) (a : α) :
    loop step cs a = cs.foldl step a := by
  induction cs generalizing a with
  | nil => rfl
  | cons c cs ih => rw [loop, force_eq, ih, List.foldl_cons]

end Containers

instance : Strict UInt8 where
  evaluate b use := force b.toNat fun n => use (UInt8.ofNat n)
  evaluate_eq b use := by simp

namespace Bls
open Pairing (lowerBits)

instance : Strict Fp where
  evaluate a use := force a.val fun n => use ⟨n⟩
  evaluate_eq a use := by simp

instance : Strict Fp2 where
  evaluate a use := force a.re fun re => force a.im fun im => use ⟨re, im⟩
  evaluate_eq a use := by simp

instance : Strict Fp6 where
  evaluate a use := force a.c0 fun c0 => force a.c1 fun c1 => force a.c2 fun c2 => use ⟨c0, c1, c2⟩
  evaluate_eq a use := by simp

instance : Strict Fp12 where
  evaluate a use := force a.c0 fun c0 => force a.c1 fun c1 => use ⟨c0, c1⟩
  evaluate_eq a use := by simp

section Powers
variable {F : Type} [FieldOps F] [DecidableEq F] [Strict F]

instance : Strict (Affine F) where
  evaluate a use := force a.x fun x => force a.y fun y => use ⟨x, y⟩
  evaluate_eq a use := by simp

instance : Strict (Point F) where
  evaluate q use := force q.x fun x => force q.y fun y => force q.z fun z => use ⟨x, y, z⟩
  evaluate_eq q use := by simp

theorem lowerBits_half {n : ℕ} (h : 1 < n) :
    lowerBits n = lowerBits (n / 2) ++ [n % 2 == 1] := by
  have hlog : n.log2 = (n / 2).log2 + 1 := by
    rw [Nat.log2_def, if_pos (show 2 ≤ n from h)]
  have hbit : n.testBit 0 = (n % 2 == 1) := by
    rw [Nat.testBit_zero]
    rfl
  rw [lowerBits, lowerBits, hlog, List.range_succ_eq_map, List.map_cons, List.map_map,
    List.reverse_cons, hbit]
  congr 2
  exact List.map_congr_left fun i _ => Nat.testBit_succ n i

/-- Going through the digits from the highest one is the recursion by halves. -/
theorem foldl_digits {α : Type} (step : α → Bool → α) (a : α) {n : ℕ} (h : 1 < n) :
    (true :: lowerBits n).foldl step a =
      step ((true :: lowerBits (n / 2)).foldl step a) (n % 2 == 1) := by
  rw [lowerBits_half h, ← List.cons_append, List.foldl_append]
  rfl

def scaleStep (q r : Point F) (bit : Bool) : Point F := if bit then r.double.add q else r.double

-- The number is worked out first, too: it comes as a formula, and each digit is read off it.
def scaleStrict (n : ℕ) (q : Point F) : Point F :=
  force n fun n => force q fun q => loop (scaleStep q) (true :: lowerBits n) .infinity

theorem scaleStrict_eq {n : ℕ} (hn : 0 < n) (q : Point F) : scaleStrict n q = q.scale n := by
  simp only [scaleStrict, force_eq, loop_eq_foldl]
  induction n using Nat.strongRecOn with
  | ind n ih =>
    rw [Point.scale, if_neg (by omega)]
    by_cases h : 1 < n
    · rw [foldl_digits _ _ h, ih (n / 2) (by omega) (by omega), scaleStep]
      simp
    · obtain rfl : n = 1 := by omega
      rw [Nat.div_eq_of_lt Nat.one_lt_two, Point.scale, if_pos rfl]
      rfl

def inSubgroupStrict (a : Affine F) : Bool := (scaleStrict order (.ofAffine a)).isInfinity

theorem inSubgroupStrict_eq (a : Affine F) : inSubgroupStrict a = inSubgroup a := by
  rw [inSubgroupStrict, scaleStrict_eq (by decide)]
  rfl

omit [DecidableEq F]

def powStep (a r : F) (bit : Bool) : F := if bit then r * r * a else r * r

def powStrict (a : F) (n : ℕ) : F :=
  force n fun n => force a fun a => loop (powStep a) (lowerBits n) (1 * 1 * a)

theorem powStrict_eq (a : F) {n : ℕ} (hn : 0 < n) : powStrict a n = pow a n := by
  simp only [powStrict, force_eq, loop_eq_foldl]
  induction n using Nat.strongRecOn with
  | ind n ih =>
    rw [pow, if_neg (by omega)]
    by_cases h : 1 < n
    · rw [lowerBits_half h, List.foldl_append, ih (n / 2) (by omega) (by omega), List.foldl_cons,
        List.foldl_nil, powStep]
      simp
    · obtain rfl : n = 1 := by omega
      rw [Nat.div_eq_of_lt Nat.one_lt_two, pow, if_pos rfl]
      rfl

end Powers

namespace HashToCurve

def hashStrict (message : List UInt8) : Point Fp2 :=
  force (expand message 8) fun bytes =>
    force (⟨residue bytes 0, residue bytes 1⟩ : Fp2) fun t0 =>
      force (⟨residue bytes 2, residue bytes 3⟩ : Fp2) fun t1 =>
        scaleStrict cofactor ((toTwist (simpleMap t0)).add (toTwist (simpleMap t1)))

theorem hashStrict_eq (message : List UInt8) : hashStrict message = hash message := by
  have hpos : 0 < cofactor := by decide +kernel
  simp only [hashStrict, force_eq, scaleStrict_eq hpos, hash]

end HashToCurve

namespace Pairing

instance : Strict Track where
  evaluate k use := force k.q fun q => force k.r fun r => force k.t fun t => use ⟨q, r, t⟩
  evaluate_eq k use := by simp

def millerLoopStrict (pairs : List (Affine Fp × Affine Fp2)) : Fp12 :=
  force pairs fun pairs =>
    (loop loopStep (lowerBits parameter)
      (1, pairs.map fun (q, r) => Track.mk q r (.ofAffine r))).1

theorem millerLoopStrict_eq (pairs : List (Affine Fp × Affine Fp2)) :
    millerLoopStrict pairs = millerLoop pairs := by
  simp only [millerLoopStrict, force_eq, loop_eq_foldl, millerLoop]

def powParameterStrict (f : Fp12) : Fp12 := (powStrict f parameter).conj

theorem powParameterStrict_eq (f : Fp12) : powParameterStrict f = powParameter f := by
  rw [powParameterStrict, powStrict_eq f (by decide)]
  rfl

/-- The Frobenius map with a factor that is already worked out. -/
def frobeniusBy (c : Fp2) (a : Fp12) : Fp12 :=
  let c2 := c * c
  let c3 := c2 * c
  let c4 := c3 * c
  let c5 := c4 * c
  ⟨⟨a.c0.c0.conj, a.c0.c1.conj * c2, a.c0.c2.conj * c4⟩,
    ⟨a.c1.c0.conj * c, a.c1.c1.conj * c3, a.c1.c2.conj * c5⟩⟩

theorem frobeniusBy_frobeniusFactor (a : Fp12) :
    frobeniusBy Fp12.frobeniusFactor a = a.frobenius := by
  simp only [frobeniusBy, Fp12.frobenius, Fp12.frobeniusFactor5, Fp12.frobeniusFactor4,
    Fp12.frobeniusFactor3, Fp12.frobeniusFactor2]

def finalPowerStrict (f : Fp12) : Fp12 :=
  force (powStrict Fp2.nonResidue ((p - 1) / 6)) fun c =>
  force (FieldOps.inv f) fun inverse =>
  force (f.conj * inverse) fun easy =>
  force (frobeniusBy c easy) fun easy' =>
  force (frobeniusBy c easy' * easy) fun g =>
  force (powParameterStrict g * g.conj) fun h =>
  force (powParameterStrict h * h.conj) fun k =>
  force (powParameterStrict k * frobeniusBy c k) fun m =>
  force (powParameterStrict m) fun m' =>
  force (frobeniusBy c m) fun m'' =>
  force (powParameterStrict m' * frobeniusBy c m'' * m.conj) fun n =>
  n * (g * g * g)

theorem finalPowerStrict_eq (f : Fp12) : finalPowerStrict f = finalPower f := by
  have hpos : 0 < (p - 1) / 6 := by decide +kernel
  have hfactor : powStrict Fp2.nonResidue ((p - 1) / 6) = Fp12.frobeniusFactor := by
    rw [powStrict_eq _ hpos, Fp12.frobeniusFactor]
  simp only [finalPowerStrict, force_eq, hfactor, frobeniusBy_frobeniusFactor,
    powParameterStrict_eq]
  rfl

def productIsOneStrict (pairs : List (Affine Fp × Affine Fp2)) : Bool :=
  force (millerLoopStrict pairs) fun f => finalPowerStrict f = 1

theorem productIsOneStrict_eq (pairs : List (Affine Fp × Affine Fp2)) :
    productIsOneStrict pairs = productIsOne pairs := by
  rw [productIsOneStrict, force_eq, finalPowerStrict_eq, millerLoopStrict_eq, productIsOne]

end Pairing

def equationHoldsStrict (key : Affine Fp) (message : List UInt8) (signature : Affine Fp2) : Bool :=
  force (⟨generator.x, -generator.y⟩ : Affine Fp) fun negGenerator =>
  force (HashToCurve.hashStrict message) fun hashed =>
  if hashed.isInfinity then Pairing.productIsOneStrict [(negGenerator, signature)]
  else Pairing.productIsOneStrict [(key, hashed.toAffine), (negGenerator, signature)]

theorem equationHoldsStrict_eq (key : Affine Fp) (message : List UInt8) (signature : Affine Fp2) :
    equationHoldsStrict key message signature = equationHolds key message signature := by
  simp only [equationHoldsStrict, force_eq, HashToCurve.hashStrict_eq,
    Pairing.productIsOneStrict_eq]
  rfl

end Bls

open Bls

/-- Whether a signature verifies. -/
def signatureHolds (key : PublicKey) (message : List UInt8) (signature : Signature) : Bool :=
  force message fun message =>
  match decodeG1 key.bytes.toList, decodeG2 signature.bytes.toList with
  | .ok (some k), .ok (some s) =>
    force k fun k => force s fun s =>
      inSubgroupStrict s && inSubgroupStrict k && equationHoldsStrict k message s
  | _, _ => false

theorem verifySignature_of_signatureHolds {key : PublicKey} {message : List UInt8}
    {signature : Signature} (h : signatureHolds key message signature = true) :
    verifySignature key message signature = .ok () := by
  rw [signatureHolds, force_eq] at h
  split at h
  · rename_i k s hkey hsignature
    simp only [force_eq, inSubgroupStrict_eq, equationHoldsStrict_eq] at h
    simp only [verifySignature, hkey, hsignature]
    exact if_pos h
  · cases h

/-- The generator, compressed. It is the key of the secret one. -/
def PublicKey.generator : PublicKey :=
  ⟨⟨Bytes.bigEndian 48 (1 <<< 383 ||| generatorX), Bytes.length_bigEndian _ _⟩⟩

/-- The compressed point whose abscissa has these two parts, the first of them with the flags. -/
def Signature.ofParts (flaggedIm re : ℕ) : Signature :=
  ⟨⟨Bytes.bigEndian 48 flaggedIm ++ Bytes.bigEndian 48 re, by
    rw [List.length_append, Bytes.length_bigEndian, Bytes.length_bigEndian]⟩⟩

end VerifiedLedger
