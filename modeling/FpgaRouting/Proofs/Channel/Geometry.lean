import FpgaRouting.Channel.Track
import FpgaRouting.Proofs.Outcome

/-!
# Proofs/Channel/Geometry — where a wire lies, without words

      seg          1   2   3   4   5   6   7   8
      wire 0   ..──┤ ├─────────────┤ ├──────────..      length 4
      phase        3   0   1   2   3   0   1   2

The *phase* of a wire at a place, `(seg + cross + wire) mod length`, is the position along the wire
before it is cut.  Up to the limit that callers keep to, the signed arithmetic of `Track.span` and
`Track.group` never overflows, and **the group that is recovered from the cut ends is the phase**,
except on a wire that spans its whole channel (`group_eq`).
-/

namespace FpgaRouting

/-- The greatest extent of a device, and the greatest length of a wire, that are considered:
`2 ^ 60`. -/
def sizeLimit : Nat := 1152921504606846976

/-- The wirepoint that a side observes of a wire in `group`. -/
def observed (group length : Nat) (side : Side) : Nat :=
  if side.isLow then (group + 1) % length else group

namespace Word

theorem toSigned_of_le_limit {n : Nat} (h : n ≤ sizeLimit) : toSigned n = n :=
  toSigned_of_lt (by simp only [sizeLimit, half] at *; omega)

theorem succ_of_le_limit {n : Nat} (h : n ≤ sizeLimit) : add n 1 = .ok (n + 1) :=
  check_of_lt (by simp only [sizeLimit, count] at *; omega)

theorem ofSigned_natCast {n : Nat} (h : n < count) : ofSigned n = n := by
  rw [ofSigned, Int.emod_eq_of_lt (by omega) (by omega), Int.toNat_natCast]

theorem addSigned_of_signed {a b : Int} (h : Signed (a + b)) : addSigned a b = .ok (a + b) :=
  checkSigned_of_signed h

theorem subSigned_of_signed {a b : Int} (h : Signed (a - b)) : subSigned a b = .ok (a - b) :=
  checkSigned_of_signed h

theorem signed_of_bounds {i : Int} (h : -4611686018427387904 ≤ i) (h' : i ≤ 4611686018427387904) :
    Signed i := by
  simp only [Signed, half]; omega

theorem signed_of_checkSigned {i j : Int} (h : checkSigned i = .ok j) : Signed i := by
  by_contra hi
  rw [checkSigned, if_neg hi] at h
  simp at h

theorem remSigned_natCast {a b : Nat} (hb : 0 < b) : remSigned a b = .ok ((a % b : Nat) : Int) := by
  have hb' : (b : Int) ≠ 0 := by omega
  have ha' : ¬ ((a : Int) = -(half : Int) ∧ (b : Int) = -1) := by omega
  rw [remSigned, if_neg hb', if_neg ha', Int.ofNat_tmod]

end Word

namespace Track

/-- The position of a place along the wire that covers it. -/
def phase (length wire seg cross : Nat) : Nat := (seg + cross + wire) % length

theorem phase_lt {length : Nat} (h : 0 < length) (wire seg cross : Nat) :
    phase length wire seg cross < length :=
  Nat.mod_lt _ h

theorem phase_mod_wire (length wire seg cross : Nat) :
    (seg + cross + wire % length) % length = phase length wire seg cross :=
  Nat.add_mod_mod _ _ _

/-- The first seg of a wire that is in phase `p` at `seg`, when the device ends before seg `1`. -/
def firstAt (seg p : Nat) : Nat := max (seg - p) 1

/-- The last seg of such a wire, when the device ends after seg `extent`. -/
def lastAt (length seg p extent : Nat) : Nat := min (seg + (length - 1 - p)) extent

/-- **The segs a wire covers**, from the phase of one of them. -/
theorem span_eq {length wire seg cross extent : Nat} (hpos : 0 < length)
    (hlength : length ≤ sizeLimit) (hseg : seg ≤ sizeLimit) (hcross : cross ≤ sizeLimit)
    (hextent : extent ≤ sizeLimit) :
    span length wire seg cross extent
      = .ok (firstAt seg (phase length wire seg cross),
          lastAt length seg (phase length wire seg cross) extent) := by
  have hphase : phase length wire seg cross < length := phase_lt hpos wire seg cross
  have hwire : wire % length < length := Nat.mod_lt _ hpos
  have hrem : Word.remSigned ((seg : Int) + cross + (wire % length : Nat)) length
      = .ok (phase length wire seg cross : Int) := by
    rw [← phase_mod_wire]
    exact Word.remSigned_natCast hpos
  rw [span, Word.toSigned_of_le_limit hseg, Word.toSigned_of_le_limit hlength,
    Word.toSigned_of_le_limit hcross, Word.toSigned_of_le_limit hextent,
    Word.toSigned_of_le_limit (hwire.le.trans hlength)]
  generalize phase length wire seg cross = p at hphase hrem ⊢
  generalize wire % length = w at hwire hrem ⊢
  simp only [sizeLimit] at hlength hseg hcross hextent
  have hfirst : max ((seg : Int) - p) 1 = (firstAt seg p : Nat) := by
    rw [firstAt]; omega
  have hlast : min ((seg : Int) - p + length - 1) extent = (lastAt length seg p extent : Nat) := by
    rw [lastAt]; omega
  have hfirst' : firstAt seg p < Word.count := by simp only [firstAt, Word.count]; omega
  have hlast' : lastAt length seg p extent < Word.count := by
    simp only [lastAt, Word.count]; omega
  rw [Word.addSigned_of_signed (Word.signed_of_bounds (by omega) (by omega)), Outcome.ok_bind,
    Word.addSigned_of_signed (Word.signed_of_bounds (by omega) (by omega)), Outcome.ok_bind, hrem,
    Outcome.ok_bind,
    Word.subSigned_of_signed (Word.signed_of_bounds (by omega) (by omega)), Outcome.ok_bind,
    Word.addSigned_of_signed (Word.signed_of_bounds (by omega) (by omega)), Outcome.ok_bind,
    Word.subSigned_of_signed (Word.signed_of_bounds (by omega) (by omega)), Outcome.ok_bind,
    hfirst, hlast, Word.ofSigned_natCast hfirst', Word.ofSigned_natCast hlast']
  rfl

/-- The group of a wire in phase `p` at `seg`: its phase, or `0` when it spans the channel. -/
def groupAt (length seg p extent : Nat) : Nat :=
  if firstAt seg p = 1 ∧ lastAt length seg p extent = extent then 0 else p

/-- **The group recovered from the ends of a wire is its phase**, unless both ends are cut. -/
theorem group_eq {t : Track} {seg p extent : Nat} (hlength : t.length ≤ sizeLimit)
    (hp : p < t.length) (hpos : 1 ≤ seg) (hseg : seg ≤ extent) (hextent : extent ≤ sizeLimit)
    (hfirst : t.firstSeg = firstAt seg p) (hlast : t.lastSeg = lastAt t.length seg p extent) :
    t.group seg extent = .ok (groupAt t.length seg p extent) := by
  have hsegw := Word.toSigned_of_le_limit (hseg.trans hextent)
  have hlengthw := Word.toSigned_of_le_limit hlength
  have hfirstw : Word.toSigned t.firstSeg = t.firstSeg :=
    Word.toSigned_of_le_limit (by simp only [hfirst, firstAt, sizeLimit] at *; omega)
  have hlastw : Word.toSigned t.lastSeg = t.lastSeg :=
    Word.toSigned_of_le_limit (by simp only [hlast, lastAt, sizeLimit] at *; omega)
  have hgroup : ∀ g : Nat, g < t.length → Word.ofSigned (g : Int) = g ∧
      ¬ ((g : Int) < 0 ∨ (t.length : Int) ≤ g) := fun g hg =>
    ⟨Word.ofSigned_natCast (by simp only [sizeLimit, Word.count] at *; omega), by omega⟩
  rw [group, hsegw, hlengthw, hfirstw, hlastw, groupAt, ← hfirst, ← hlast]
  simp only [sizeLimit] at hlength hextent
  simp only [firstAt, lastAt] at hfirst hlast
  by_cases h1 : t.firstSeg = 1
  · by_cases h2 : t.lastSeg = extent
    · have h0 : ¬ ((0 : Int) < 0 ∨ (t.length : Int) ≤ 0) := by omega
      simp only [h1, h2, ne_eq, not_true_eq_false, if_false, pure_bind, h0, and_self, if_true]
      rfl
    · -- The wire is cut at the low edge only, and measured from its end.
      have hlast' : Word.subSigned ((t.length : Int) - 1) ((t.lastSeg : Int) - seg)
          = .ok (p : Int) := by
        rw [Word.subSigned_of_signed (Word.signed_of_bounds (by omega) (by omega))]
        congr 1
        omega
      obtain ⟨hpw, hrange⟩ := hgroup p hp
      have hlow : ¬ (t.firstSeg = 1 ∧ t.lastSeg = extent) := fun h => h2 h.2
      rw [if_neg (not_not.mpr h1), if_pos h2, if_neg hlow,
        Word.subSigned_of_signed (Word.signed_of_bounds (by omega) (by omega)), Outcome.liftM_ok,
        Outcome.ok_bind,
        Word.subSigned_of_signed (Word.signed_of_bounds (by omega) (by omega)), Outcome.liftM_ok,
        Outcome.ok_bind, hlast', Outcome.liftM_ok, Outcome.ok_bind]
      simp only [hrange, if_false, hpw]
      rfl
  · have hsub : Word.subSigned (seg : Int) t.firstSeg = .ok (p : Int) := by
      rw [Word.subSigned_of_signed (Word.signed_of_bounds (by omega) (by omega))]
      congr 1
      omega
    obtain ⟨hpw, hrange⟩ := hgroup p hp
    rw [if_pos h1, if_neg fun h => h1 h.1, hsub, Outcome.liftM_ok, Outcome.ok_bind]
    simp only [hrange, if_false, hpw]
    rfl

theorem groupAt_lt {length seg p extent : Nat} (hp : p < length) :
    groupAt length seg p extent < length := by
  rw [groupAt]
  split_ifs
  · exact Nat.zero_lt_of_lt hp
  · exact hp

/-- **A wire shorter than its channel never spans it.** -/
theorem groupAt_of_lt {length seg p extent : Nat} (hp : p < length) (hlength : length < extent) :
    groupAt length seg p extent = p := by
  rw [groupAt, if_neg]
  simp only [firstAt, lastAt]
  omega

end Track

/-! ## Wirepoints -/

theorem wirepointSeen_eq {group length : Nat} (hgroup : group < length)
    (hlength : length ≤ sizeLimit) (side : Side) :
    wirepointSeen group length side = .ok (observed group length side) := by
  have hadd : group + 1 < Word.count := by simp only [sizeLimit, Word.count] at *; omega
  rw [wirepointSeen, observed]
  split_ifs
  · rw [Word.add, Word.check_of_lt hadd, Outcome.ok_bind,
      Word.mod_of_ne_zero (Nat.ne_zero_of_lt hgroup)]
  · rfl

/-- **Every wirepoint is observed of exactly one group.** -/
theorem exists_groupSeen_eq {wirepoint length : Nat} (hwirepoint : wirepoint < length)
    (hlength : length ≤ sizeLimit) (side : Side) :
    ∃ g, groupSeen wirepoint length side = .ok g ∧
      ∀ group < length, group = g ↔ observed group length side = wirepoint := by
  rw [groupSeen]
  simp only [observed]
  split_ifs
  · have hadd : wirepoint + length < Word.count := by simp only [sizeLimit, Word.count] at *; omega
    refine ⟨(wirepoint + length - 1) % length, ?_, fun group hgroup => ?_⟩
    · rw [Word.add, Word.check_of_lt hadd, Outcome.ok_bind, Word.sub_of_le (by omega),
        Outcome.ok_bind, Word.mod_of_ne_zero (Nat.ne_zero_of_lt hwirepoint)]
    · rcases Nat.eq_zero_or_pos wirepoint with rfl | hpos
      · rw [Nat.zero_add, Nat.mod_eq_of_lt (by omega)]
        rcases Nat.lt_or_ge (group + 1) length with h | h
        · rw [Nat.mod_eq_of_lt h]; omega
        · rw [show group + 1 = length by omega, Nat.mod_self]; omega
      · rw [show wirepoint + length - 1 = (wirepoint - 1) + length by omega, Nat.add_mod_right,
          Nat.mod_eq_of_lt (by omega)]
        rcases Nat.lt_or_ge (group + 1) length with h | h
        · rw [Nat.mod_eq_of_lt h]; omega
        · rw [show group + 1 = length by omega, Nat.mod_self]; omega
  · exact ⟨wirepoint, rfl, fun group _ => Iff.rfl⟩

end FpgaRouting
