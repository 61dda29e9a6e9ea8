import Mathlib

/-! # Objects in planes

An object is a run of bits, a plane the bits of the bytes that store it. A placement says which bit
of the plane holds each bit of the object; bits it leaves out are padding. A contiguous range of the
object is one range of the plane, so one read or write of the plane moves it. -/
namespace Celox.Memory

abbrev Bits := Nat → Bool

def readBits (plane : Bits) (start bits : Nat) : List Bool :=
  (List.range bits).map fun k => plane (start + k)

def writeBits (plane : Bits) (start : Nat) (data : List Bool) : Bits := fun p =>
  if start ≤ p then (data[p - start]?).getD (plane p) else plane p

@[simp] theorem length_readBits (plane : Bits) (start bits : Nat) :
    (readBits plane start bits).length = bits := by
  simp [readBits]

theorem readBits_eq {plane plane' : Bits} {start start' bits : Nat}
    (h : ∀ k < bits, plane (start + k) = plane' (start' + k)) :
    readBits plane start bits = readBits plane' start' bits :=
  List.map_congr_left fun k hk => h k (List.mem_range.mp hk)

theorem getElem?_readBits {plane : Bits} {start bits k : Nat} (h : k < bits) :
    (readBits plane start bits)[k]? = some (plane (start + k)) := by
  simp [readBits, h]

theorem writeBits_inside {plane : Bits} {start : Nat} {data : List Bool} {k : Nat}
    (h : k < data.length) : writeBits plane start data (start + k) = data[k] := by
  simp [writeBits, h]

theorem writeBits_outside {plane : Bits} {start : Nat} {data : List Bool} {p : Nat}
    (h : ∀ k < data.length, p ≠ start + k) : writeBits plane start data p = plane p := by
  unfold writeBits
  split
  · rename_i hle
    rw [List.getElem?_eq_none, Option.getD_none]
    by_contra hlt
    exact h (p - start) (by omega) (by omega)
  · rfl

section Placement
variable {place : Nat → Nat} {width : Nat} {plane object : Bits} {start bits position : Nat}

/-- The plane has every bit of the object at its place. -/
def Holds (place : Nat → Nat) (width : Nat) (plane object : Bits) : Prop :=
  ∀ i < width, plane (place i) = object i

/-- A range of the object is one range of the plane. -/
def Contiguous (place : Nat → Nat) (start bits position : Nat) : Prop :=
  ∀ k < bits, place (start + k) = position + k

theorem Contiguous.read (h : Contiguous place start bits position)
    (hholds : Holds place width plane object) (hin : start + bits ≤ width) :
    readBits plane position bits = readBits object start bits := by
  refine readBits_eq fun k hk => ?_
  rw [← h k hk, hholds _ (by omega)]

theorem Contiguous.write {data : List Bool} (h : Contiguous place start data.length position)
    (hholds : Holds place width plane object) (hin : start + data.length ≤ width)
    (hinj : ∀ i < width, ∀ j < width, place i = place j → i = j) :
    Holds place width (writeBits plane position data) (writeBits object start data) := by
  intro i hi
  by_cases hrange : start ≤ i ∧ i < start + data.length
  · obtain ⟨k, rfl⟩ := Nat.exists_eq_add_of_le hrange.1
    have hk : k < data.length := by omega
    rw [h k hk, writeBits_inside hk, writeBits_inside hk]
  · rw [writeBits_outside fun k hk => ?_, writeBits_outside fun k hk => by omega]
    · exact hholds i hi
    · rw [← h k hk]
      intro heq
      have := hinj i hi (start + k) (by omega) heq
      omega

/-- Padding, and every bit of the object out of the range, stays as it is. -/
theorem Contiguous.write_frame {data : List Bool}
    (h : Contiguous place start data.length position) {p : Nat}
    (hp : ∀ k < data.length, p ≠ place (start + k)) :
    writeBits plane position data p = plane p :=
  writeBits_outside fun k hk => h k hk ▸ hp k hk

/-! ## Copies between placements -/

/-- Chunks that follow each other and cover a range. -/
inductive Tiles : Nat → Nat → List (Nat × Nat) → Prop
  | nil {start : Nat} : Tiles start 0 []
  | cons {start part rest : Nat} {chunks : List (Nat × Nat)} :
    Tiles (start + part) rest chunks → Tiles start (part + rest) ((start, part) :: chunks)

/-- Copy every chunk as one range of the source plane to one of the destination plane. -/
def copyChunks (srcPlace dstPlace : Nat → Nat) (chunks : List (Nat × Nat))
    (srcPlane dstPlane : Bits) : Bits :=
  chunks.foldl (fun plane (start, bits) =>
    writeBits plane (dstPlace start) (readBits srcPlane (srcPlace start) bits)) dstPlane

theorem writeBits_append {srcObject : Bits} {part rest : Nat} :
    writeBits (writeBits object start (readBits srcObject start part)) (start + part)
      (readBits srcObject (start + part) rest) =
    writeBits object start (readBits srcObject start (part + rest)) := by
  have hread (object : Bits) (start bits p : Nat) :
      writeBits object start (readBits srcObject start bits) p =
        if start ≤ p ∧ p < start + bits then srcObject p else object p := by
    split
    · rename_i h
      obtain ⟨k, rfl⟩ := Nat.exists_eq_add_of_le h.1
      rw [writeBits_inside (by simpa using h.2)]
      simp [readBits]
    · rename_i h
      exact writeBits_outside fun k hk => by
        rw [length_readBits] at hk
        omega
  funext p
  simp only [hread]
  split_ifs <;> first | rfl | omega

/-- A copy chunk by chunk copies the range of the object. -/
theorem Tiles.copy {srcPlace dstPlace : Nat → Nat} {srcWidth dstWidth : Nat}
    {srcPlane dstPlane srcObject dstObject : Bits} {chunks : List (Nat × Nat)}
    (h : Tiles start bits chunks)
    (hchunks : ∀ chunk ∈ chunks, Contiguous srcPlace chunk.1 chunk.2 (srcPlace chunk.1) ∧
      Contiguous dstPlace chunk.1 chunk.2 (dstPlace chunk.1))
    (hsrc : start + bits ≤ srcWidth) (hdst : start + bits ≤ dstWidth)
    (hinj : ∀ i < dstWidth, ∀ j < dstWidth, dstPlace i = dstPlace j → i = j)
    (hsrcHolds : Holds srcPlace srcWidth srcPlane srcObject)
    (hdstHolds : Holds dstPlace dstWidth dstPlane dstObject) :
    Holds dstPlace dstWidth (copyChunks srcPlace dstPlace chunks srcPlane dstPlane)
      (writeBits dstObject start (readBits srcObject start bits)) := by
  induction h generalizing dstPlane dstObject with
  | nil => exact fun i hi => by simpa [writeBits, readBits, copyChunks] using hdstHolds i hi
  | @cons start part rest chunks _ ih =>
    obtain ⟨hsrcPart, hdstPart⟩ := hchunks (start, part) (List.mem_cons_self ..)
    have hread : readBits srcPlane (srcPlace start) part = readBits srcObject start part :=
      hsrcPart.read hsrcHolds (by omega)
    rw [← writeBits_append]
    refine ih (fun chunk hchunk => hchunks chunk (List.mem_cons_of_mem _ hchunk)) (by omega)
      (by omega) ?_
    dsimp only
    rw [hread]
    exact Contiguous.write (by rwa [length_readBits]) hdstHolds (by rw [length_readBits]; omega) hinj

end Placement
end Celox.Memory
