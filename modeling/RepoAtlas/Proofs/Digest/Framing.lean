import Mathlib.Algebra.Group.Nat.Defs
import RepoAtlas.Proofs.Engine.Storing
import RepoAtlas.Proofs.Text.Bytes

/-!
# Framed parts

The bytes that stand for a list of parts are read back in one way only: the first eight of them tell how long the
first part is, and so where the next one begins. So what two lists of parts have in common is their fingerprint at
most, and then their frames are two messages with one digest.
-/

namespace RepoAtlas

open Digest

/-! ### Hexadecimal digits -/

namespace Text

lemma hexDigit_inj {m n : Nat} (hm : m < 16) (hn : n < 16) (h : hexDigit m = hexDigit n) : m = n := by
  have hall : ∀ m < 16, ∀ n < 16, hexDigit m = hexDigit n → m = n := by decide
  exact hall m hm n hn h

lemma hexOfBytes_injective {a b : List UInt8} (h : hexOfBytes a = hexOfBytes b) : a = b := by
  have hdigits := String.ofList_injective h
  clear h
  induction a generalizing b with
  | nil =>
    cases b with
    | nil => rfl
    | cons y b => cases hdigits
  | cons x a ih =>
    cases b with
    | nil => cases hdigits
    | cons y b =>
      simp only [List.flatMap_cons, List.cons_append, List.nil_append, List.cons.injEq] at hdigits
      obtain ⟨hhigh, hlow, hrest⟩ := hdigits
      have hx := x.toNat_lt
      have hy := y.toNat_lt
      have hhigh := hexDigit_inj (by omega) (by omega) hhigh
      have hlow := hexDigit_inj (by omega) (by omega) hlow
      have hxy : x = y := UInt8.toNat_inj.mp (by omega)
      rw [hxy, ih hrest]

/-- Texts have different bytes. -/
lemma bytes_injective {s t : String} (h : bytes s = bytes t) : s = t := by
  have hread := ofBytes?_bytes s
  rw [h, ofBytes?_bytes] at hread
  exact (Option.some.inj hread).symm

end Text

/-! ### Lengths -/

lemma length_littleEndian (width n : Nat) : (littleEndian width n).length = width := by
  induction width generalizing n with
  | zero => rfl
  | succ width ih => rw [littleEndian, List.length_cons, ih]

/-- Numbers that fit into some bytes have different bytes. -/
lemma littleEndian_inj {width m n : Nat} (hm : m < 256 ^ width) (hn : n < 256 ^ width)
    (h : littleEndian width m = littleEndian width n) : m = n := by
  induction width generalizing m n with
  | zero =>
    rw [Nat.pow_zero] at hm hn
    omega
  | succ width ih =>
    rw [littleEndian, littleEndian, List.cons.injEq] at h
    rw [Nat.pow_succ] at hm hn
    have hlow := congrArg UInt8.toNat h.1
    simp only [UInt8.toNat_ofNat'] at hlow
    have hhigh := ih (by omega) (by omega) h.2
    omega

/-! ### Parts -/

variable {p q : String} {ps qs : List String} {x y : List UInt8}

/-- The length of each part fits into eight bytes. -/
def Framable (ps : List String) : Prop := ∀ p ∈ ps, (Text.bytes p).length < 2 ^ 64

instance : DecidablePred Framable := fun ps =>
  inferInstanceAs (Decidable (∀ p ∈ ps, (Text.bytes p).length < 2 ^ 64))

/-- A framed part is told from what follows it. -/
lemma framePart_append_inj (hp : (Text.bytes p).length < 2 ^ 64) (hq : (Text.bytes q).length < 2 ^ 64)
    (h : framePart p ++ x = framePart q ++ y) : p = q ∧ x = y := by
  rw [framePart, framePart, List.append_assoc, List.append_assoc] at h
  obtain ⟨hlength, hrest⟩ := List.append_inj h (by rw [length_littleEndian, length_littleEndian])
  obtain ⟨hbytes, hfollows⟩ := List.append_inj hrest (littleEndian_inj hp hq hlength)
  exact ⟨Text.bytes_injective hbytes, hfollows⟩

lemma framePart_ne_nil (p : String) : framePart p ≠ [] := List.cons_ne_nil _ _

/-- The induction goes along both lists at once, for the end of one is told from any part of the other. -/
lemma frameParts_inj (hps : Framable ps) (hqs : Framable qs) (h : frameParts ps = frameParts qs) : ps = qs := by
  induction ps generalizing qs with
  | nil =>
    cases qs with
    | nil => rfl
    | cons q qs => exact absurd (List.append_eq_nil_iff.mp h.symm).1 (framePart_ne_nil q)
  | cons p ps ih =>
    cases qs with
    | nil => exact absurd (List.append_eq_nil_iff.mp h).1 (framePart_ne_nil p)
    | cons q qs =>
      obtain ⟨hp, hps'⟩ := List.forall_mem_cons.mp hps
      obtain ⟨hq, hqs'⟩ := List.forall_mem_cons.mp hqs
      obtain ⟨hpq, hrest⟩ := framePart_append_inj hp hq h
      rw [hpq, ih hps' hqs' hrest]

/-! ### Fingerprints -/

/-- Two messages have the same digest. -/
def Collision (a b : List UInt8) : Prop := a ≠ b ∧ sha256 a = sha256 b

lemma collision_of_fingerprintParts_eq (hps : Framable ps) (hqs : Framable qs) (hne : ps ≠ qs)
    (h : fingerprintParts ps = fingerprintParts qs) : Collision (frameParts ps) (frameParts qs) :=
  ⟨fun hsame => hne (frameParts_inj hps hqs hsame), Text.hexOfBytes_injective h⟩

/-- Frames tell lists of parts apart. So the ids of two chunks can be the same only if both are about one unit with one
text, or else the digest of their two frames, which differ, is the same. -/
theorem frames_tell_parts :
    (∀ ps qs, Framable ps → Framable qs → frameParts ps = frameParts qs → ps = qs) ∧
    ∀ now now' us us' results results', ∀ c ∈ Ingest.chunks now us results, ∀ c' ∈ Ingest.chunks now' us' results',
      Framable [c.unitId, c.text] → Framable [c'.unitId, c'.text] → c.id = c'.id →
        (c.unitId, c.text) = (c'.unitId, c'.text) ∨
          Collision (frameParts [c.unitId, c.text]) (frameParts [c'.unitId, c'.text]) := by
  refine ⟨fun ps qs => frameParts_inj, fun now now' us us' results results' c hc c' hc' hsize hsize' hid => ?_⟩
  obtain ⟨_, u, v, -, -, rfl⟩ := Ingest.mem_chunks hc
  obtain ⟨_, u', v', -, -, rfl⟩ := Ingest.mem_chunks hc'
  by_cases hsame : [u.id, u.chunkText] = [u'.id, u'.chunkText]
  · exact .inl (by simpa [Ingest.chunkOf] using hsame)
  · exact .inr (collision_of_fingerprintParts_eq hsize hsize' hsame hid)

/-- A function of a file. -/
def framedUnit : CodeUnit :=
  .ofDefinition "a.py" ⟨"f", "f", .function, none, none, none, none, "def f(): pass", default⟩

/-- Parts that are the same when they are put together have different frames, and a unit that is embedded twice has
chunks with one id. -/
theorem frames_tell_parts_shifted :
    Framable ["ab", "c"] ∧ Framable ["a", "bc"] ∧ frameParts ["ab", "c"] ≠ frameParts ["a", "bc"] ∧
      ∃ c ∈ Ingest.chunks ⟨0, 0⟩ [framedUnit] [.ok [1]], ∃ c' ∈ Ingest.chunks ⟨60, 0⟩ [framedUnit] [.ok [2]],
        Framable [c.unitId, c.text] ∧ Framable [c'.unitId, c'.text] ∧ c.id = c'.id ∧
          ((c.unitId, c.text) = (c'.unitId, c'.text) ∨
            Collision (frameParts [c.unitId, c.text]) (frameParts [c'.unitId, c'.text])) := by
  have hab : Framable ["ab", "c"] := by decide +kernel
  have ha : Framable ["a", "bc"] := by decide +kernel
  have hsize : Framable [framedUnit.id, framedUnit.chunkText] := by decide +kernel
  refine ⟨hab, ha, fun h => absurd (frames_tell_parts.1 _ _ hab ha h) (by decide), ?_⟩
  have hc : Ingest.chunkOf ⟨0, 0⟩ framedUnit [1] ∈ Ingest.chunks ⟨0, 0⟩ [framedUnit] [.ok [1]] := List.mem_cons_self
  have hc' : Ingest.chunkOf ⟨60, 0⟩ framedUnit [2] ∈ Ingest.chunks ⟨60, 0⟩ [framedUnit] [.ok [2]] :=
    List.mem_cons_self
  exact ⟨_, hc, _, hc', hsize, hsize, rfl, frames_tell_parts.2 _ _ _ _ _ _ _ hc _ hc' hsize hsize rfl⟩

end RepoAtlas
