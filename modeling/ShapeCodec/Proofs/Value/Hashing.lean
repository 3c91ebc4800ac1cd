import Mathlib.Data.List.Find
import Mathlib.Tactic.Linarith
import ShapeCodec.Proofs.Number.Rounding
import ShapeCodec.Proofs.Value.Equivalence
import ShapeCodec.Value.Hashing

/-! # Hash tables respect sameness

Values that are the same feed the same data, so a search that compares only what it meets misses
none of them: sets, maps and sameness itself come out as if every member and key were compared.
-/

namespace ShapeCodec

/-- Numbers that are the same feed the same data, and a search meets whatever feeds the same. -/
structure Hashing.Lawful (h : Hashing) : Prop where
  float : ∀ x y : Binary64, x.same y = true → h.float x = h.float y
  decimal : ∀ d e : Decimal, d.same e = true → h.decimal d = h.decimal e
  meets : ∀ c, h.meets c c = true

namespace Value

variable {h : Hashing}

/-! ## The data that is fed -/

theorem feed_eq_iff {a b : Value} :
    a.feed h = b.feed h ↔ a.kindNumber = b.kindNumber ∧ a.contentFeed h = b.contentFeed h := by
  simp [feed]

theorem itemsFeed_congr {xs ys : List Value}
    (hs : List.Forall₂ (fun x y => x.feed h = y.feed h) xs ys) :
    itemsFeed h xs = itemsFeed h ys := by
  induction hs with
  | nil => rfl
  | cons hxy _ ih =>
    obtain ⟨hk, hc⟩ := feed_eq_iff.mp hxy
    rw [itemsFeed, itemsFeed, hk, hc, ih]

theorem fieldsFeed_congr {xs ys : List (String × Value)}
    (hs : List.Forall₂ (fun a b => a.1 = b.1 ∧ a.2.feed h = b.2.feed h) xs ys) :
    fieldsFeed h xs = fieldsFeed h ys := by
  induction hs with
  | nil => rfl
  | @cons a b _ _ hab _ ih =>
    obtain ⟨n, v⟩ := a
    obtain ⟨m, w⟩ := b
    obtain ⟨rfl, hf⟩ := hab
    obtain ⟨hk, hc⟩ := feed_eq_iff.mp hf
    rw [fieldsFeed, fieldsFeed, hk, hc, ih]

theorem feed_eq_of_same (hl : h.Lawful) {a b : Value} (hab : a.same b = true) :
    a.feed h = b.feed h := by
  induction a using inductionParts generalizing b with
  | step a ih =>
  cases a with
  | none => rw [none_same_iff.mp hab]
  | ellipsis => rw [ellipsis_same_iff.mp hab]
  | bool _ => rw [bool_same_iff.mp hab]
  | int _ => rw [int_same_iff.mp hab]
  | str _ => rw [str_same_iff.mp hab]
  | member _ _ => rw [member_same_iff.mp hab]
  | float x =>
    obtain ⟨y, rfl, hxy⟩ := float_same_iff.mp hab
    rw [feed, feed, contentFeed, contentFeed, hl.float x y hxy, kindNumber, kindNumber]
  | decimal d =>
    obtain ⟨e, rfl, hde⟩ := decimal_same_iff.mp hab
    rw [feed, feed, contentFeed, contentFeed, hl.decimal d e hde, kindNumber, kindNumber]
  | sequence k xs =>
    obtain ⟨ys, rfl, hs⟩ := sequence_same_iff.mp hab
    have hk : (sequence k xs).kindNumber = (sequence k ys).kindNumber := by cases k <;> rfl
    rw [feed, feed, hk, contentFeed, contentFeed]
    cases hset : k.isSet with
    | true =>
      rw [if_pos hset] at hs
      rw [hs.1, if_pos rfl, if_pos rfl]
    | false =>
      rw [hset, if_neg Bool.false_ne_true] at hs
      have hi := hs.imp_of_mem fun x hx y hxy => ih x hx hxy
      rw [hs.length_eq, itemsFeed_congr hi]
  | map k es =>
    obtain ⟨fs, rfl, hlen, -⟩ := map_same_iff.mp hab
    have hk : (map k es).kindNumber = (map k fs).kindNumber := by cases k <;> rfl
    rw [feed, feed, hk, contentFeed, contentFeed, hlen]
  | record n fs =>
    obtain ⟨gs, rfl, hs⟩ := record_same_iff.mp hab
    have hi := hs.imp_of_mem fun p hp q hpq =>
      And.intro hpq.1 (ih p.2 (mem_parts_record hp) hpq.2)
    rw [feed, feed, contentFeed, contentFeed, hs.length_eq, fieldsFeed_congr hi, kindNumber,
      kindNumber]

/-- A search loses nothing by comparing only what it meets. -/
theorem meets_and_same (hl : h.Lawful) (a b : Value) :
    (h.meets (a.feed h) (b.feed h) && a.same b) = a.same b := by
  cases hs : a.same b with
  | false => rw [Bool.and_false]
  | true => rw [feed_eq_of_same hl hs, hl.meets, Bool.and_true]

/-! ## The entry of a key -/

theorem find?_key_iff {k : MapKind} {es : List (Value × Value)} (w : (map k es).WellFormed)
    {key : Value} (wk : key.WellFormed) {e : Value × Value} :
    (es.find? fun d => key.same d.1) = some e ↔ e ∈ es ∧ key.same e.1 = true := by
  constructor
  · intro hf
    exact ⟨List.mem_of_find?_eq_some hf, by simpa using List.find?_some hf⟩
  · rintro ⟨he, hke⟩
    obtain ⟨before, after, rfl⟩ := List.append_of_mem he
    have apart := (List.pairwise_append.mp w.distinct).2.2
    apply List.find?_eq_some_iff_append.mpr
    refine ⟨hke, before, after, rfl, fun d hd => ?_⟩
    have hde : e.1.same d.1 = false := apart d hd e List.mem_cons_self
    cases hkd : key.same d.1 with
    | false => rfl
    | true =>
      have hek : e.1.same key = true := same_symm wk (w.key he) hke
      have wd := w.key (List.mem_append_left _ hd)
      rw [same_trans (w.key he) wk wd hek hkd] at hde
      cases hde

/-! ## Sameness told with tables -/

attribute [local simp] tableSame same tableItems sameItems tableFields sameFields tableWithin
  sameWithin tableEntries sameEntries

theorem tableItems_eq {xs ys : List Value}
    (hs : ∀ x ∈ xs, ∀ y ∈ ys, x.tableSame h y = x.same y) :
    tableItems h xs ys = sameItems xs ys := by
  induction xs generalizing ys with
  | nil => cases ys <;> simp
  | cons x xs ih =>
    cases ys with
    | nil => simp
    | cons y ys =>
      rw [tableItems, sameItems, hs x List.mem_cons_self y List.mem_cons_self,
        ih fun x hx y hy => hs x (List.mem_cons_of_mem _ hx) y (List.mem_cons_of_mem _ hy)]

theorem tableFields_eq {xs ys : List (String × Value)}
    (hs : ∀ p ∈ xs, ∀ q ∈ ys, p.2.tableSame h q.2 = p.2.same q.2) :
    tableFields h xs ys = sameFields xs ys := by
  induction xs generalizing ys with
  | nil => cases ys <;> simp
  | cons p xs ih =>
    obtain ⟨m, v⟩ := p
    cases ys with
    | nil => simp
    | cons q ys =>
      obtain ⟨n, w⟩ := q
      rw [tableFields, sameFields, hs (m, v) List.mem_cons_self (n, w) List.mem_cons_self,
        ih fun p hp q hq => hs p (List.mem_cons_of_mem _ hp) q (List.mem_cons_of_mem _ hq)]

theorem tableHas_eq (hl : h.Lawful) {x : Value} {ys : List Value}
    (hs : ∀ y ∈ ys, x.tableSame h y = x.same y) : tableHas h ys x = ys.any x.same := by
  rw [tableHas, Bool.eq_iff_iff, List.any_eq_true, List.any_eq_true]
  apply exists_congr
  intro y
  apply and_congr_right
  intro hy
  rw [hs y hy, meets_and_same hl]

theorem tableFind?_eq (hl : h.Lawful) {key : Value} {es : List (Value × Value)}
    (hs : ∀ e ∈ es, key.tableSame h e.1 = key.same e.1) :
    tableFind? h es key = es.find? fun e => key.same e.1 := by
  apply List.find?_congr
  intro e he
  rw [hs e he, meets_and_same hl]

theorem tableWithin_eq (hl : h.Lawful) {xs ys : List Value}
    (hs : ∀ x ∈ xs, ∀ y ∈ ys, x.tableSame h y = x.same y) :
    tableWithin h xs ys = sameWithin xs ys := by
  induction xs with
  | nil => simp
  | cons x xs ih =>
    have hx : (ys.any fun y => h.meets (x.feed h) (y.feed h) && x.tableSame h y) = ys.any x.same :=
      tableHas_eq hl (hs x List.mem_cons_self)
    rw [tableWithin, sameWithin, hx, ih fun x hx => hs x (List.mem_cons_of_mem _ hx)]

theorem tableEntries_eq (hl : h.Lawful) {k : MapKind} {xs ys : List (Value × Value)}
    (wx : ∀ p ∈ xs, p.1.WellFormed) (wy : (map k ys).WellFormed)
    (hs : ∀ p ∈ xs, ∀ q ∈ ys, p.1.tableSame h q.1 = p.1.same q.1 ∧
      p.2.tableSame h q.2 = p.2.same q.2) :
    tableEntries h xs ys = sameEntries xs ys := by
  induction xs with
  | nil => simp
  | cons p xs ih =>
    obtain ⟨key, v⟩ := p
    have hp := hs (key, v) List.mem_cons_self
    have hfind : (ys.find? fun e => h.meets (key.feed h) (e.1.feed h) && key.tableSame h e.1) =
        ys.find? fun e => key.same e.1 := tableFind?_eq hl fun e he => (hp e he).1
    rw [tableEntries, sameEntries, hfind, ih (fun p hp => wx p (List.mem_cons_of_mem _ hp))
      fun p hp => hs p (List.mem_cons_of_mem _ hp)]
    congr 1
    have wk : key.WellFormed := wx (key, v) List.mem_cons_self
    rw [Bool.eq_iff_iff, Option.any_eq_true, List.any_eq_true]
    constructor
    · rintro ⟨e, he, hv⟩
      obtain ⟨he, hk⟩ := (find?_key_iff wy wk).mp he
      rw [(hp e he).2] at hv
      exact ⟨e, he, Bool.and_eq_true_iff.mpr ⟨hk, hv⟩⟩
    · rintro ⟨e, he, hkv⟩
      obtain ⟨hk, hv⟩ := Bool.and_eq_true_iff.mp hkv
      rw [← (hp e he).2] at hv
      exact ⟨e, (find?_key_iff wy wk).mpr ⟨he, hk⟩, hv⟩

/-- Sameness comes out of the tables as it is told by comparing everything. -/
theorem tableSame_eq (hl : h.Lawful) {a b : Value} (wa : a.WellFormed) (wb : b.WellFormed) :
    a.tableSame h b = a.same b := by
  induction a using inductionParts generalizing b with
  | step a ih =>
  cases a with
  | sequence k xs =>
    cases b with
    | sequence l ys =>
      have hs : ∀ x ∈ xs, ∀ y ∈ ys, x.tableSame h y = x.same y :=
        fun x hx y hy => ih x hx (wa.part hx) (wb.part hy)
      rw [tableSame, same, tableItems_eq hs, tableWithin_eq hl hs]
    | _ => simp
  | map k xs =>
    cases b with
    | map l ys =>
      rw [tableSame, same, tableEntries_eq hl (fun p hp => wa.key hp) wb fun p hp q hq =>
        ⟨ih _ (mem_parts_map hp).1 (wa.key hp) (wb.key hq),
          ih _ (mem_parts_map hp).2 (wa.value hp) (wb.value hq)⟩]
    | _ => simp
  | record n fs =>
    cases b with
    | record m gs =>
      rw [tableSame, same, tableFields_eq fun p hp q hq =>
        ih _ (mem_parts_record hp) (wa.field hp) (wb.field hq)]
    | _ => simp
  | _ => cases b <;> simp

end Value

/-! ## The data of numbers -/

def Binary64.canonicalBits : Binary64 → Nat
  | nan => 0x7ff8 * twoTo 48
  | infinite negative => negative.toNat * twoTo 63 + 0x7ff * twoTo 52
  | finite negative units _ =>
    if units = 0 then 0
    else
      let shift := units.log2 - 52
      negative.toNat * twoTo 63 + shift * twoTo 52 + units / twoTo shift

namespace Decimal

/-- A coefficient and a scale with the zeros at the end of the coefficient taken off the scale. -/
def reduced : Int → Nat → Int × Nat
  | c, 0 => (c, 0)
  | c, s + 1 => if c % 10 = 0 then reduced (c / 10) s else (c, s + 1)

theorem reduced_mul_ten (c : Int) (s : Nat) : reduced (10 * c) (s + 1) = reduced c s := by
  rw [reduced, if_pos (Int.mul_emod_right 10 c), Int.mul_ediv_cancel_left c (by decide)]

theorem reduced_of_not_dvd {c : Int} (h : ¬ 10 ∣ c) (s : Nat) : reduced c s = (c, s) := by
  cases s with
  | zero => rfl
  | succ s => rw [reduced, if_neg fun hc => h (Int.dvd_of_emod_eq_zero hc)]

theorem natCast_tenTo_zero : (tenTo 0 : Int) = 1 := rfl

theorem natCast_tenTo_succ (n : Nat) : (tenTo (n + 1) : Int) = 10 * tenTo n := by
  rw [tenTo_succ]
  exact Int.natCast_mul 10 (tenTo n)

theorem reduced_eq_of_mul_eq (c : Int) (s : Nat) (d : Int) (t : Nat)
    (h : c * tenTo t = d * tenTo s) : reduced c s = reduced d t := by
  match s, t with
  | 0, 0 =>
    obtain rfl : c = d := by simpa using h
    rfl
  | 0, t + 1 =>
    rw [natCast_tenTo_succ, natCast_tenTo_zero, Int.mul_one] at h
    obtain rfl : d = 10 * (c * tenTo t) := by linarith
    rw [reduced_mul_ten]
    exact reduced_eq_of_mul_eq c 0 _ t (Int.mul_one _).symm
  | s + 1, 0 =>
    rw [natCast_tenTo_succ, natCast_tenTo_zero, Int.mul_one] at h
    obtain rfl : c = 10 * (d * tenTo s) := by linarith
    rw [reduced_mul_ten]
    exact reduced_eq_of_mul_eq _ s d 0 (Int.mul_one _)
  | s + 1, t + 1 =>
    rw [natCast_tenTo_succ, natCast_tenTo_succ] at h
    by_cases hc : 10 ∣ c
    · obtain ⟨c, rfl⟩ := hc
      rw [reduced_mul_ten]
      apply reduced_eq_of_mul_eq c s d (t + 1)
      rw [natCast_tenTo_succ]
      linarith
    · by_cases hd : 10 ∣ d
      · obtain ⟨d, rfl⟩ := hd
        rw [reduced_mul_ten]
        apply reduced_eq_of_mul_eq c (s + 1) d t
        rw [natCast_tenTo_succ]
        linarith
      · -- neither has a zero at its end: they are the same before the last digit of the scale too
        have hst := reduced_eq_of_mul_eq c s d t (by linarith)
        rw [reduced_of_not_dvd hc, reduced_of_not_dvd hd, Prod.mk.injEq] at hst ⊢
        exact ⟨hst.1, congrArg (· + 1) hst.2⟩
termination_by s + t

/-- The words of a coefficient, from the lowest on, and the one of its sign and the scale. -/
def words : Int × Nat → List Chunk
  | (c, s) =>
    let low := c.natAbs % twoTo 32
    let middle := c.natAbs / twoTo 32 % twoTo 32
    let flags := s * twoTo 16 + if c < 0 then twoTo 31 else 0
    [.word low, .word middle, .word (c.natAbs / twoTo 64), .word flags]

end Decimal

/-- Tables that meet equal data, over the bits of floating-point numbers and the words of decimals
in reduced form. -/
def reducedHashing : Hashing where
  float x := [.word x.canonicalBits]
  decimal d := Decimal.words (Decimal.reduced d.coefficient d.scale)
  meets c d := c == d

theorem reducedHashing_lawful : reducedHashing.Lawful where
  float x y hxy := by
    cases x <;> cases y <;> simp only [Binary64.same, Bool.and_eq_true, Bool.or_eq_true,
      beq_iff_eq, Bool.false_eq_true] at hxy
    case nan.nan => rfl
    case infinite.infinite => rw [hxy]
    case finite.finite =>
      obtain ⟨rfl, rfl | rfl⟩ := hxy
      · rfl
      · simp only [reducedHashing, Binary64.canonicalBits, ↓reduceIte]
  decimal d e hde :=
    congrArg Decimal.words (Decimal.reduced_eq_of_mul_eq _ _ _ _ (beq_iff_eq.mp hde))
  meets c := beq_self_eq_true c

namespace Value

theorem wellFormed_triple {k : SequenceKind} {x y z : Value} (hx : x.parts = [])
    (hy : y.parts = []) (hz : z.parts = []) (hyx : y.same x = false) (hzx : z.same x = false)
    (hzy : z.same y = false) : (sequence k [x, y, z]).WellFormed := by
  rw [wellFormed_sequence_iff]
  constructor
  · intro _
    simp [hyx, hzx, hzy]
  · simp [wellFormed_of_parts_eq_nil hx, wellFormed_of_parts_eq_nil hy,
      wellFormed_of_parts_eq_nil hz]

/-! ## The laws -/

/-- Sameness is an equivalence, what is the same feeds the same data, and the tables tell sameness,
membership and the entry of a key as comparing everything does. -/
theorem hashing_respects_sameness {h : Hashing} (hl : h.Lawful) :
    (∀ a : Value, a.same a = true) ∧
    (∀ a b : Value, a.WellFormed → b.WellFormed → a.same b = true → b.same a = true) ∧
    (∀ a b c : Value, a.WellFormed → b.WellFormed → c.WellFormed →
      a.same b = true → b.same c = true → a.same c = true) ∧
    (∀ a b : Value, a.same b = true → a.feed h = b.feed h) ∧
    (∀ a b : Value, a.WellFormed → b.WellFormed → a.tableSame h b = a.same b) ∧
    (∀ (k : SequenceKind) (members : List Value) (v : Value),
      (sequence k members).WellFormed → v.WellFormed →
        (tableHas h members v = true ↔ ∃ m ∈ members, v.same m = true)) ∧
    ∀ (k : MapKind) (entries : List (Value × Value)) (key : Value),
      (map k entries).WellFormed → key.WellFormed →
        ∀ e, tableFind? h entries key = some e ↔ e ∈ entries ∧ key.same e.1 = true := by
  refine ⟨same_refl, fun a b => same_symm, fun a b c => same_trans, fun a b => feed_eq_of_same hl,
    fun a b => tableSame_eq hl, ?_, ?_⟩
  · intro k members v w wv
    have wm : ∀ m ∈ members, m.WellFormed := fun m hm => w.part hm
    rw [tableHas_eq hl fun m hm => tableSame_eq hl wv (wm m hm), List.any_eq_true]
  · intro k entries key w wk e
    rw [tableFind?_eq hl fun e he => tableSame_eq hl wk (w.key he)]
    exact find?_key_iff w wk

/-- Two sets that differ in the order, in the scale of a decimal and in the sign of zero are one
key. -/
theorem hashing_respects_sameness_reordered :
    let zero (negative : Bool) := float (.finite negative 0 Binary64.representable_zero)
    let a := sequence .frozenSet [decimal ⟨10, 1, by decide, by decide⟩, zero false, float .nan]
    let b := sequence .frozenSet [float .nan, zero true, decimal ⟨100, 2, by decide, by decide⟩]
    reducedHashing.Lawful ∧ a.WellFormed ∧ b.WellFormed ∧ a.same b = true ∧ b.same a = true ∧
      a.feed reducedHashing = b.feed reducedHashing ∧ a.tableSame reducedHashing b = true ∧
      tableFind? reducedHashing [(a, str "found")] b = some (a, str "found") := by
  intro zero a b
  obtain ⟨-, symm, -, feeds, tables, -, finds⟩ := hashing_respects_sameness reducedHashing_lawful
  have wa : a.WellFormed := wellFormed_triple rfl rfl rfl (by cbv) (by cbv) (by cbv)
  have wb : b.WellFormed := wellFormed_triple rfl rfl rfl (by cbv) (by cbv) (by cbv)
  have wm : (map .dict [(a, str "found")]).WellFormed := by
    rw [wellFormed_map_iff]
    exact ⟨List.pairwise_singleton _ _, by simpa using ⟨wa, wellFormed_of_parts_eq_nil rfl⟩⟩
  have hab : a.same b = true := by cbv
  have hba : b.same a = true := symm a b wa wb hab
  have hkey : b.same (a, str "found").1 = true := hba
  exact ⟨reducedHashing_lawful, wa, wb, hab, hba, feeds a b hab, (tables a b wa wb).trans hab,
    (finds .dict _ b wm wb _).mpr ⟨List.mem_singleton_self _, hkey⟩⟩

end Value

end ShapeCodec
