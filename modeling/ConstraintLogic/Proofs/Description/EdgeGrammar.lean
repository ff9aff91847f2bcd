import Mathlib.Algebra.Ring.Parity
import Mathlib.Tactic.SplitIfs
import ConstraintLogic.Proofs.Description.Accepted
/-!
# How edges are written

The arguments of an edge are its source, its target, its weight and its flags, in this order, and
only the source has to be there. A list of arguments that is accepted is the list of what was read
from it, and the edge that comes of it is told from its parts at once.
-/

namespace ConstraintLogic

/-! ## Weights as numbers -/

/-- The double that stands for a weight. -/
def Weight.number : Weight → Float
  | single => 1
  | double => 2

namespace Decimal.Binary

theorem toBits_injective {x y : Float} (h : x.toBits = y.toBits) : x = y := by
  obtain ⟨⟨bits, hvalid⟩⟩ := x
  obtain ⟨⟨bits', hvalid'⟩⟩ := y
  cases h
  rfl

/-- What is known of a mantissa whose number is whole and positive. -/
theorem mantissa_of_whole? {negative : Bool} {mantissa n : Nat} {exponent : Int} (hn : 0 < n)
    (h : (finite negative mantissa exponent).whole? = some (n : Int)) :
    negative = false ∧ mantissa * 2 ^ exponent.toNat = n * 2 ^ (-exponent).toNat := by
  simp only [whole?, isWhole, Nat.pow_eq, Bool.or_eq_true, decide_eq_true_eq, beq_iff_eq,
    Option.ite_none_right_eq_some, Option.some.injEq] at h
  obtain ⟨hwhole, hsize⟩ := h
  cases negative with
  | true =>
    rw [if_pos rfl] at hsize
    omega
  | false =>
    refine ⟨rfl, ?_⟩
    rw [if_neg Bool.false_ne_true, Int.natCast_inj] at hsize
    by_cases hexponent : 0 ≤ exponent
    · rw [if_pos hexponent] at hsize
      rw [hsize, Int.toNat_eq_zero.2 (by omega : -exponent ≤ 0), Nat.pow_zero, Nat.mul_one]
    · rw [if_neg hexponent] at hsize
      have hdvd : 2 ^ (-exponent).toNat ∣ mantissa :=
        Nat.dvd_of_mod_eq_zero (hwhole.resolve_left hexponent)
      rw [← hsize, Nat.div_mul_cancel hdvd, Int.toNat_eq_zero.2 (by omega), Nat.pow_zero,
        Nat.mul_one]

/-- A normal mantissa is a power of two only without a fraction; the power gives the exponent. -/
theorem eq_of_normal {fraction biased place : Nat} (hfraction : fraction < 2 ^ 52)
    (hplace : place < 52)
    (h : (2 ^ 52 + fraction) * 2 ^ ((biased : Int) - 1075).toNat =
      2 ^ place * 2 ^ (-((biased : Int) - 1075)).toNat) :
    fraction = 0 ∧ biased = 1023 + place := by
  rcases Nat.lt_or_ge biased 1075 with hbiased | hbiased
  · have hleft : ((biased : Int) - 1075).toNat = 0 := by omega
    have hright : (-((biased : Int) - 1075)).toNat = 1075 - biased := by omega
    rw [hleft, hright, Nat.pow_zero, Nat.mul_one, ← Nat.pow_add] at h
    have hlow : 52 ≤ place + (1075 - biased) :=
      (Nat.pow_le_pow_iff_right (by decide : 1 < 2)).1 (by omega)
    have hhigh : place + (1075 - biased) < 53 :=
      (Nat.pow_lt_pow_iff_right (by decide : 1 < 2)).1 (by omega)
    have hexact : place + (1075 - biased) = 52 := by omega
    rw [hexact] at h
    omega
  · have hright : (-((biased : Int) - 1075)).toNat = 0 := by omega
    rw [hright, Nat.pow_zero, Nat.mul_one] at h
    have hpower : 2 ^ place < 2 ^ 52 := Nat.pow_lt_pow_right (by decide) hplace
    have hgrown : 2 ^ 52 + fraction ≤ (2 ^ 52 + fraction) * 2 ^ ((biased : Int) - 1075).toNat :=
      Nat.le_mul_of_pos_right _ (Nat.two_pow_pos _)
    omega

/-- A whole number that is a weight is written by one double only. -/
theorem whole?_ofFloat_eq_value_iff {x : Float} {w : Weight} :
    (ofFloat x).whole? = some (w.value : Int) ↔ x = w.number := by
  constructor
  · intro h
    have hpositive : 0 < w.value := by cases w <;> decide
    obtain ⟨place, hplace, hvalue, hnumber⟩ : ∃ place, place < 52 ∧ w.value = 2 ^ place ∧
        w.number.toBits.toNat = (1023 + place) * 2 ^ 52 := by
      cases w
      · exact ⟨0, by decide, rfl, by decide +kernel⟩
      · exact ⟨1, by decide, rfl, by decide +kernel⟩
    unfold ofFloat at h
    have hfraction : x.toBits.toNat % leastNormal < 2 ^ 52 := Nat.mod_lt _ (by decide)
    dsimp only at h
    split_ifs at h with hlast hzero hfirst
    · cases h
    · cases h
    · -- a subnormal number is less than one
      obtain ⟨-, hmantissa⟩ := mantissa_of_whole? hpositive h
      have hlarge : 2 ^ 52 ≤ w.value * 2 ^ (-leastExponent).toNat :=
        (Nat.pow_le_pow_right (by decide) (by decide)).trans (Nat.le_mul_of_pos_left _ hpositive)
      have hsmall : leastExponent.toNat = 0 := rfl
      rw [hsmall] at hmantissa
      omega
    · obtain ⟨hsign, hmantissa⟩ := mantissa_of_whole? hpositive h
      -- the place of the one digit gives the exponent, and so all the bits
      rw [hvalue] at hmantissa
      obtain ⟨hnone, hbiased⟩ := eq_of_normal hfraction hplace hmantissa
      have hbits : x.toBits.toNat < 2 ^ 64 := x.toBits.toNat_lt
      rw [beq_eq_false_iff_ne] at hsign
      simp only [leastNormal, Nat.pow_eq] at hnone hbiased hsign
      apply toBits_injective
      rw [← UInt64.toNat_inj, hnumber]
      omega
  · rintro rfl
    cases w <;> decide +kernel

end Decimal.Binary

namespace Description

/-! ## Words -/

theorem Flag.parse?_eq_none_iff {word : String} :
    Flag.parse? word = none ↔ ∀ f : Flag, word ≠ f.name := by
  constructor
  · intro h f hword
    cases h.symm.trans (Flag.parse?_eq_some_iff.2 hword)
  · intro h
    cases hparse : Flag.parse? word with
    | none => rfl
    | some f => exact absurd (Flag.parse?_eq_some_iff.1 hparse) (h f)

theorem Flag.parse?_name (f : Flag) : Flag.parse? f.name = some f :=
  Flag.parse?_eq_some_iff.2 rfl

namespace EdgeEntry

variable {entry next : EdgeEntry} {args : List Argument}

theorem weight_eq_ok_iff {x : Float} {w : Weight} : weight x = .ok w ↔ x = w.number := by
  rw [← Decimal.Binary.whole?_ofFloat_eq_value_iff, weight]
  cases (Decimal.Binary.ofFloat x).whole? with
  | none => simp
  | some n =>
    have hsize : (w.value : Int) < UInt32.size := by cases w <;> decide
    simp only [Option.some.injEq]
    split_ifs with hn
    · rw [Weight.ofValue_eq_ok_iff]
      omega
    · simp only [false_iff]
      omega

/-- No name in the entry is a flag, and no flag in it is for vertices only. -/
structure Worded (entry : EdgeEntry) : Prop where
  source : ∀ f : Flag, entry.source ≠ f.name
  target : ∀ word, entry.target? = some word → ∀ f : Flag, word ≠ f.name
  flags : Flag.hidden ∉ entry.flags

/-- The arguments that say what the entry says. -/
def arguments (entry : EdgeEntry) : List Argument :=
  .text entry.source :: (entry.target?.map Argument.text).toList ++
    (entry.weight?.map fun w => .number w.number).toList ++
      entry.flags.map fun f => .text f.name

/-! ## Reading arguments -/

/-- One more argument that is accepted is one more argument of the entry. -/
theorem arguments_of_extend {arg : Argument} (h : entry.extend arg = .ok next)
    (hworded : entry.Worded) : next.Worded ∧ next.arguments = entry.arguments ++ [arg] := by
  obtain ⟨source, target?, weight?, flags⟩ := entry
  cases arg with
  | number x =>
    simp only [extend, Bool.and_eq_true, Option.isNone_iff_eq_none, List.isEmpty_iff] at h
    split_ifs at h with hempty
    · obtain ⟨rfl, rfl⟩ := hempty
      cases hweight : weight x with
      | error fault =>
        rw [hweight] at h
        cases h
      | ok w =>
        rw [hweight] at h
        obtain rfl := Except.ok.inj h
        refine ⟨⟨hworded.source, hworded.target, hworded.flags⟩, ?_⟩
        rw [weight_eq_ok_iff.1 hweight]
        simp [arguments]
  | text word =>
    simp only [extend, Bool.and_eq_true, Option.isNone_iff_eq_none, List.isEmpty_iff] at h
    split at h
    · cases h
    · next f hhidden hparse =>
      obtain rfl := Except.ok.inj h
      obtain rfl := Flag.parse?_eq_some_iff.1 hparse
      refine ⟨⟨hworded.source, hworded.target, ?_⟩, by simp [arguments]⟩
      rw [List.mem_append, List.mem_singleton, not_or]
      exact ⟨hworded.flags, fun heq => hhidden heq.symm⟩
    · next hparse =>
      split_ifs at h with hempty
      · obtain ⟨⟨rfl, rfl⟩, rfl⟩ := hempty
        obtain rfl := Except.ok.inj h
        refine ⟨⟨hworded.source, ?_, hworded.flags⟩, by simp [arguments]⟩
        rintro _ ⟨⟩
        exact Flag.parse?_eq_none_iff.1 hparse

theorem arguments_of_foldlM_extend {rest : List Argument} {last : EdgeEntry}
    (h : rest.foldlM extend entry = .ok last) (hworded : entry.Worded) :
    last.Worded ∧ last.arguments = entry.arguments ++ rest := by
  induction rest generalizing entry with
  | nil =>
    obtain rfl := Except.ok.inj h
    exact ⟨hworded, (List.append_nil _).symm⟩
  | cons arg rest ih =>
    rw [List.foldlM_cons] at h
    cases hextend : entry.extend arg with
    | error fault =>
      rw [hextend] at h
      cases h
    | ok next =>
      rw [hextend] at h
      obtain ⟨hnext, harguments⟩ := arguments_of_extend hextend hworded
      obtain ⟨hlast, hrest⟩ := ih h hnext
      refine ⟨hlast, ?_⟩
      rw [hrest, harguments, List.append_assoc, List.singleton_append]

/-- Flags are collected in the order in which they are written. -/
theorem foldlM_extend_flags {flags : List Flag} (h : Flag.hidden ∉ flags) (entry : EdgeEntry) :
    (flags.map fun f => Argument.text f.name).foldlM extend entry =
      .ok { entry with flags := entry.flags ++ flags } := by
  induction flags generalizing entry with
  | nil =>
    rw [List.append_nil]
    rfl
  | cons f rest ih =>
    rw [List.mem_cons, not_or] at h
    obtain ⟨hf, hrest⟩ := h
    have hextend : entry.extend (.text f.name) =
        .ok { entry with flags := entry.flags ++ [f] } := by
      rw [extend, Flag.parse?_name]
      cases f with
      | hidden => exact absurd rfl hf
      | muted | label | flip => rfl
    rw [List.map_cons, List.foldlM_cons, hextend]
    change List.foldlM extend { entry with flags := entry.flags ++ [f] } _ = _
    rw [ih hrest, List.append_assoc, List.singleton_append]

/-- The arguments of an entry are read as the entry. -/
theorem ofArguments_arguments (h : entry.Worded) : ofArguments entry.arguments = .ok entry := by
  obtain ⟨source, target?, weight?, flags⟩ := entry
  have htarget : (target?.map Argument.text).toList.foldlM extend ⟨source, none, none, []⟩ =
      .ok ⟨source, target?, none, []⟩ := by
    cases target? with
    | none => rfl
    | some word =>
      have hparse : Flag.parse? word = none := Flag.parse?_eq_none_iff.2 (h.target word rfl)
      simp [extend, hparse]
  have hweight : (weight?.map fun w => Argument.number w.number).toList.foldlM extend
      ⟨source, target?, none, []⟩ = .ok ⟨source, target?, weight?, []⟩ := by
    cases weight? with
    | none => rfl
    | some w =>
      have hnumber : weight w.number = .ok w := weight_eq_ok_iff.2 rfl
      simp [extend, hnumber]
  have hsource : Flag.parse? source = none := Flag.parse?_eq_none_iff.2 h.source
  rw [arguments, List.cons_append, List.cons_append, ofArguments, hsource]
  simp only [Option.isNone_none, if_true, List.foldlM_append]
  rw [htarget]
  change (List.foldlM extend ⟨source, target?, none, []⟩ _ >>= _) = _
  rw [hweight]
  exact foldlM_extend_flags h.flags _

/-- A list of arguments that is accepted says what the entry says, and nothing else. -/
theorem ofArguments_eq_ok_iff :
    ofArguments args = .ok entry ↔ entry.Worded ∧ args = entry.arguments := by
  constructor
  · intro h
    unfold ofArguments at h
    split at h
    · next source rest =>
      split_ifs at h with hsource
      have hparse := Flag.parse?_eq_none_iff.1 (Option.isNone_iff_eq_none.1 hsource)
      obtain ⟨hworded, harguments⟩ :=
        arguments_of_foldlM_extend h ⟨hparse, nofun, List.not_mem_nil⟩
      exact ⟨hworded, harguments.symm⟩
    · cases h
  · rintro ⟨hworded, rfl⟩
    exact ofArguments_arguments hworded

/-! ## What flags make of an edge -/

/-- Flags turn an edge round or not, and do nothing else to it but show something. -/
theorem foldl_apply (flags : List Flag) (e : Edge) :
    flags.foldl (fun e flag => flag.apply e) e =
      { e with
        source := if Odd (flags.count .flip) then e.target else e.source
        target := if Odd (flags.count .flip) then e.source else e.target
        muted := e.muted || decide (.muted ∈ flags)
        labelVisible := e.labelVisible || decide (.label ∈ flags) } := by
  induction flags generalizing e with
  | nil => simp
  | cons flag rest ih =>
    rw [List.foldl_cons, ih]
    cases flag with
    | hidden => simp [Flag.apply]
    | muted => simp [Flag.apply]
    | label => simp [Flag.apply]
    | flip =>
      simp only [Flag.apply, Edge.reverse, List.count_cons_self, Nat.odd_add_one, List.mem_cons,
        reduceCtorEq, false_or]
      split_ifs <;> rfl

/-- The edge that an entry describes between two ends that have been found. -/
def joining (entry : EdgeEntry) (id source target : Ident) : Edge where
  id := id
  source := if Odd (entry.flags.count .flip) then target else source
  target := if Odd (entry.flags.count .flip) then source else target
  weight := entry.weight?.getD .single
  muted := decide (.muted ∈ entry.flags)
  labelVisible := decide (.label ∈ entry.flags)

theorem edge_eq_joining (entry : EdgeEntry) (id source target : Ident) :
    entry.edge id source target = entry.joining id source target := by
  rw [edge, foldl_apply]
  simp [joining]

example : (EdgeEntry.mk "a" (some "b") none [.flip, .muted, .flip, .flip]).joining ⟨["e"]⟩ ⟨["a"]⟩
    ⟨["b"]⟩ = ⟨⟨["e"]⟩, ⟨["b"]⟩, ⟨["a"]⟩, .single, true, false⟩ := by decide

end EdgeEntry

end Description

end ConstraintLogic
