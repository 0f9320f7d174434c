import Mathlib.Data.List.Basic
import Lattix.Lib.Utf8

namespace Lattix.Lib.Framing

section parts
variable {α : Type*} {a b s t : List α}

/-- A run of letters of a kind ends where one of another kind follows. -/
theorem run_inj {p : α → Prop} (ha : ∀ x ∈ a, p x) (hb : ∀ x ∈ b, p x)
    (hs : ∀ x, s.head? = some x → ¬p x) (ht : ∀ x, t.head? = some x → ¬p x) (h : a ++ s = b ++ t) :
    a = b ∧ s = t := by
  induction a generalizing b with
  | nil =>
    cases b with
    | nil => exact ⟨rfl, h⟩
    | cons y b =>
      have hh : s.head? = some y := congrArg List.head? h
      exact absurd (hb y List.mem_cons_self) (hs y hh)
  | cons x a ih =>
    cases b with
    | nil =>
      have hh : t.head? = some x := (congrArg List.head? h).symm
      exact absurd (ha x List.mem_cons_self) (ht x hh)
    | cons y b =>
      rw [List.cons_append, List.cons_append] at h
      obtain ⟨rfl, hrest⟩ := List.cons.inj h
      obtain ⟨rfl, hst⟩ := ih (fun z hz => ha z (List.mem_cons_of_mem _ hz))
        (fun z hz => hb z (List.mem_cons_of_mem _ hz)) hrest
      exact ⟨rfl, hst⟩

/-- A field that ends at the first letter of its kind. -/
theorem terminated_inj {x : α} (ha : x ∉ a) (hb : x ∉ b) (h : a ++ x :: s = b ++ x :: t) :
    a = b ∧ s = t := by
  have hn (l : List α) (hl : x ∉ l) : ∀ y ∈ l, y ≠ x := fun y hy he => hl (he ▸ hy)
  have hx (l : List α) : ∀ y, (x :: l).head? = some y → ¬y ≠ x :=
    fun y hy => not_not.mpr (Option.some.inj hy).symm
  obtain ⟨rfl, hst⟩ := run_inj (p := (· ≠ x)) (hn a ha) (hn b hb) (hx s) (hx t) h
  exact ⟨rfl, (List.cons.inj hst).2⟩

end parts

/-! ASCII -/

theorem encode_append (cs ds : List Char) :
    Utf8.encode (cs ++ ds) = Utf8.encode cs ++ Utf8.encode ds := List.flatMap_append

theorem encode_injective {cs ds : List Char} (h : Utf8.encode cs = Utf8.encode ds) : cs = ds := by
  rw [← Utf8.decode_encode cs, h, Utf8.decode_encode]

/-- An ASCII character is one byte. -/
theorem encode_ascii {c : Char} (h : c.toNat < 128) : String.utf8EncodeChar c = [c.toNat.toUInt8] := by
  have hs : c.utf8Size = 1 := by
    rw [Char.utf8Size, if_pos]
    exact UInt32.le_iff_toNat_le.mpr (Nat.le_of_lt_succ h)
  rw [String.utf8EncodeChar_eq_singleton hs]
  rfl

/-- The bytes of a text of ASCII characters that meet `p`. -/
theorem encode_forall {p : UInt8 → Prop} {cs : List Char} (hc : ∀ c ∈ cs, c.toNat < 128)
    (hp : ∀ c ∈ cs, p c.toNat.toUInt8) : ∀ b ∈ Utf8.encode cs, p b := by
  intro b hb
  obtain ⟨c, hm, hb⟩ := List.mem_flatMap.mp hb
  rw [encode_ascii (hc c hm), List.mem_singleton] at hb
  exact hb ▸ hp c hm

theorem encode_length {cs : List Char} (hc : ∀ c ∈ cs, c.toNat < 128) :
    (Utf8.encode cs).length = cs.length := by
  induction cs with
  | nil => rfl
  | cons c cs ih =>
    rw [Utf8.encode, List.flatMap_cons, encode_ascii (hc c List.mem_cons_self), List.length_append]
    have := ih fun d hd => hc d (List.mem_cons_of_mem _ hd)
    rw [Utf8.encode] at this
    rw [this, List.length_singleton, List.length_cons, Nat.add_comm]

end Lattix.Lib.Framing
