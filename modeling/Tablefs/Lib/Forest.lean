/-
Forests that exist only in parent numbers.

A map `t` has entries under keys; an entry may be a directory, which then has a number.
`up` reads off a key the number of the directory the entry is in. Nothing in the map says
that these numbers lead anywhere: a number is `Linked` if a chain of directories leads from
the root's number to it, and the map is a `Forest` if the directory of every entry is.

Adding an entry to a linked directory keeps a forest one, and so does taking out an entry
that has nothing below it (`Forest.erase`). Moving an entry keeps it if the way to the new
place does not lead through the entry, and what was in its place had nothing below it but
the entry itself (`Forest.move`).
-/
import Mathlib.Logic.Function.Basic

set_option autoImplicit false

/-- A chain of directories of `t` leads from the root to the number. -/
inductive Linked {κ ι : Type*} (up : κ → ι) (root : ι) (t : κ → Option (Option ι)) : ι → Prop
  | root : Linked up root t root
  | child {k : κ} {i : ι} (hd : t k = some (some i)) (hp : Linked up root t (up k)) :
      Linked up root t i

/-- Every entry is in a directory that a chain leads to. -/
def Forest {κ ι : Type*} (up : κ → ι) (root : ι) (t : κ → Option (Option ι)) : Prop :=
  ∀ k, t k ≠ none → Linked up root t (up k)

variable {κ ι : Type*} {up : κ → ι} {root : ι} {t t' : κ → Option (Option ι)}

theorem Linked.mono {x : ι} (h : Linked up root t x)
    (ht : ∀ k i, t k = some (some i) → t' k = some (some i)) : Linked up root t' x := by
  induction h with
  | root => exact .root
  | child hd _ ih => exact .child (ht _ _ hd) ih

/-- A number other than the root's is that of a directory. -/
theorem Linked.number {x : ι} (h : Linked up root t x) : x = root ∨ ∃ k, t k = some (some x) := by
  cases h with
  | root => exact Or.inl rfl
  | child hd _ => exact Or.inr ⟨_, hd⟩

/-- A number keeps its chain when the entries outside a set change, if no entry of the set is
in one of the directories that change and the number is not that of one. -/
theorem Linked.keep {P : κ → Prop} {x : ι} (h : Linked up root t x)
    (hsame : ∀ k i, t k = some (some i) → P k → t' k = some (some i))
    (hin : ∀ k i, t k = some (some i) → P k → ∀ j i', t j = some (some i') → ¬ P j → i' ≠ up k)
    (hx : ∀ j i', t j = some (some i') → ¬ P j → i' ≠ x) : Linked up root t' x := by
  induction h with
  | root => exact .root
  | @child k i hd _ ih =>
      have hk : P k := by
        by_contra hk
        exact hx k i hd hk rfl
      exact .child (hsame k i hd hk) (ih (hin k i hd hk))

namespace Forest

section

variable [DecidableEq κ]

/-- An entry under a key that had none. -/
theorem put (h : Forest up root t) {a : κ} (ha : t a = none) (n : Option ι)
    (hup : Linked up root t (up a)) : Forest up root (Function.update t a (some n)) := by
  have hmono : ∀ k i, t k = some (some i) → Function.update t a (some n) k = some (some i) := by
    intro k i hk
    rw [Function.update_of_ne ?_, hk]
    rintro rfl
    rw [ha] at hk
    cases hk
  intro k hk
  by_cases hka : k = a
  · subst hka
    exact hup.mono hmono
  · rw [Function.update_of_ne hka] at hk
    exact (h k hk).mono hmono

/-- An entry that has no other below it is taken out. -/
theorem erase (h : Forest up root t) {a : κ}
    (hempty : ∀ i, t a = some (some i) → ∀ k, k ≠ a → t k ≠ none → up k ≠ i) :
    Forest up root (Function.update t a none) := by
  intro k hk
  have hka : k ≠ a := by
    rintro rfl
    exact hk (Function.update_self k none t)
  rw [Function.update_of_ne hka] at hk
  -- the chains that are left do not lead through `a`
  refine (h k hk).keep (P := fun k => k ≠ a) ?_ ?_ ?_
  · intro j i hj hja
    rw [Function.update_of_ne hja, hj]
  · intro j i hj hja j' i' hj' hj'a hi
    rw [not_not.mp hj'a] at hj'
    exact hempty i' hj' j hja (by rw [hj]; exact Option.some_ne_none _) hi.symm
  · intro j i hj hja hi
    rw [not_not.mp hja] at hj
    exact hempty i hj k hka hk hi.symm

/-- An entry is moved, and what was in its new place goes. The way to the new place may not
lead through the entry, and what goes may have nothing below it but the entry. -/
theorem move (h : Forest up root t) {a b : κ} (hab : a ≠ b)
    (hbelow : Linked up root (Function.update t a none) (up b))
    (hempty : ∀ i, t b = some (some i) → ∀ k, k ≠ a → k ≠ b → t k ≠ none → up k ≠ i) :
    Forest up root (Function.update (Function.update t a none) b (t a)) := by
  have hother : ∀ k, k ≠ a → k ≠ b →
      Function.update (Function.update t a none) b (t a) k = t k := by
    intro k hka hkb
    rw [Function.update_of_ne hkb, Function.update_of_ne hka]
  have hat : Function.update (Function.update t a none) b (t a) b = t a :=
    Function.update_self _ _ _
  -- the new place has a chain: what led through the old directory in it led to itself
  have hup : Linked up root (Function.update (Function.update t a none) b (t a)) (up b) := by
    have hgen : ∀ x, Linked up root (Function.update t a none) x →
        (∀ i, t b = some (some i) → i = up b ∨ i ≠ x) →
        Linked up root (Function.update (Function.update t a none) b (t a)) x := by
      intro x hx
      induction hx with
      | root => exact fun _ => .root
      | @child k i hd _ ih =>
          intro hi
          have hka : k ≠ a := by
            rintro rfl
            rw [Function.update_self] at hd
            cases hd
          rw [Function.update_of_ne hka] at hd
          by_cases hkb : k = b
          · subst hkb
            have hself : i = up k := (hi i hd).resolve_right fun hne => hne rfl
            rw [hself]
            exact ih fun i' hi' => by
              rw [hd] at hi'
              exact Or.inl ((Option.some.inj (Option.some.inj hi')).symm.trans hself)
          · refine .child ((hother k hka hkb).trans hd) (ih fun i' hi' => ?_)
            exact Or.inr (Ne.symm (hempty i' hi' k hka hkb (by rw [hd]; exact Option.some_ne_none _)))
    refine hgen _ hbelow fun i hi => ?_
    by_cases hib : i = up b
    · exact Or.inl hib
    · exact Or.inr hib
  have hlink : ∀ x, Linked up root t x → (∀ i, t b = some (some i) → i ≠ x) →
      Linked up root (Function.update (Function.update t a none) b (t a)) x := by
    intro x hx
    induction hx with
    | root => exact fun _ => .root
    | @child k i hd _ ih =>
        intro hi
        by_cases hkb : k = b
        · subst hkb
          exact absurd rfl (hi i hd)
        · by_cases hka : k = a
          · -- the moved directory hangs from its new place
            subst hka
            exact .child (hat.trans hd) hup
          · refine .child ((hother k hka hkb).trans hd) (ih fun i' hi' => ?_)
            exact Ne.symm (hempty i' hi' k hka hkb (by rw [hd]; exact Option.some_ne_none _))
  intro k hk
  by_cases hkb : k = b
  · subst hkb
    exact hup
  · have hka : k ≠ a := by
      rintro rfl
      rw [Function.update_of_ne hkb, Function.update_self] at hk
      exact hk rfl
    rw [hother k hka hkb] at hk
    exact hlink _ (h k hk) fun i hi => Ne.symm (hempty i hi k hka hkb hk)

end

end Forest
