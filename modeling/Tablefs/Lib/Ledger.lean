/-
Who holds what: resources that are acquired and freed one after another.

`Goes` says which uses are possible, given what is in use, and what is in use after them.
`hold` follows one owner, who may free only what it holds. What others hold is then in use
before and after (`Goes.others`), and never freed in between (`Goes.free_notMem`). When all that
has come into use is split among owners, it stays so while they act one at a time (`Split.step`).
-/
import Mathlib.Data.List.Nodup
import Mathlib.Data.Set.Insert
import Mathlib.Logic.Function.Basic

set_option autoImplicit false

namespace Ledger

variable {ρ : Type*}

/-- A use of a resource. -/
inductive Use (ρ : Type*)
  | acquire (r : ρ)
  | free (r : ρ)
  deriving DecidableEq, Repr

/-- The uses lead from `S` in use to `T` in use: only what is not in use is acquired, and only
what is in use is freed. -/
def Goes : Set ρ → List (Use ρ) → Set ρ → Prop
  | S, [], T => T = S
  | S, .acquire r :: uses, T => r ∉ S ∧ Goes (insert r S) uses T
  | S, .free r :: uses, T => r ∈ S ∧ Goes (S \ {r}) uses T

variable [DecidableEq ρ]

/-- What an owner holds after some uses, the last first: nothing if it frees what it does not
hold. -/
def hold : List ρ → List (Use ρ) → Option (List ρ)
  | own, [] => some own
  | own, .acquire r :: uses => hold (r :: own) uses
  | own, .free r :: uses => if r ∈ own then hold (own.erase r) uses else none

theorem hold_append (own : List ρ) (uses uses' : List (Use ρ)) :
    hold own (uses ++ uses') = (hold own uses).bind fun own' => hold own' uses' := by
  induction uses generalizing own with
  | nil => rfl
  | cons use uses ih =>
      cases use with
      | acquire r => exact ih (r :: own)
      | free r =>
          rw [List.cons_append, hold, hold]
          split
          · exact ih (own.erase r)
          · rfl

omit [DecidableEq ρ] in
theorem goes_append {S T : Set ρ} {uses uses' : List (Use ρ)} :
    Goes S (uses ++ uses') T ↔ ∃ M, Goes S uses M ∧ Goes M uses' T := by
  induction uses generalizing S with
  | nil =>
      constructor
      · intro h
        exact ⟨S, rfl, h⟩
      · rintro ⟨M, rfl, h⟩
        exact h
  | cons use uses ih =>
      cases use with
      | acquire r =>
          rw [List.cons_append, Goes, ih]
          constructor
          · rintro ⟨hr, M, h, h'⟩
            exact ⟨M, ⟨hr, h⟩, h'⟩
          · rintro ⟨M, ⟨hr, h⟩, h'⟩
            exact ⟨hr, M, h, h'⟩
      | free r =>
          rw [List.cons_append, Goes, ih]
          constructor
          · rintro ⟨hr, M, h, h'⟩
            exact ⟨M, ⟨hr, h⟩, h'⟩
          · rintro ⟨M, ⟨hr, h⟩, h'⟩
            exact ⟨hr, M, h, h'⟩

/-- The owner holds resources that are in use, each once. -/
structure Holds (own : List ρ) (S : Set ρ) : Prop where
  nodup : own.Nodup
  inUse : ∀ r ∈ own, r ∈ S

omit [DecidableEq ρ] in
theorem Holds.acquire {own : List ρ} {S : Set ρ} (h : Holds own S) {r : ρ} (hr : r ∉ S) :
    Holds (r :: own) (insert r S) := by
  refine ⟨List.nodup_cons.mpr ⟨fun hmem => hr (h.inUse r hmem), h.nodup⟩, ?_⟩
  intro s hs
  rcases List.mem_cons.mp hs with rfl | hs
  · exact Set.mem_insert s S
  · exact Set.mem_insert_of_mem r (h.inUse s hs)

theorem Holds.free {own : List ρ} {S : Set ρ} (h : Holds own S) (r : ρ) :
    Holds (own.erase r) (S \ {r}) := by
  refine ⟨h.nodup.erase r, ?_⟩
  intro s hs
  obtain ⟨hne, hs⟩ := h.nodup.mem_erase_iff.mp hs
  exact ⟨h.inUse s hs, hne⟩

/-- What the owner does not hold is left as it is. -/
theorem Goes.others {S T : Set ρ} {uses : List (Use ρ)} {own own' : List ρ} (hg : Goes S uses T)
    (h : Holds own S) (hown : hold own uses = some own') :
    Holds own' T ∧ ∀ r, r ∈ T ∧ r ∉ own' ↔ r ∈ S ∧ r ∉ own := by
  induction uses generalizing S own with
  | nil =>
      obtain rfl := hg
      obtain rfl := Option.some.inj hown
      exact ⟨h, fun r => Iff.rfl⟩
  | cons use uses ih =>
      cases use with
      | acquire r =>
          obtain ⟨hr, hg⟩ := hg
          obtain ⟨hholds, hsame⟩ := ih hg (h.acquire hr) hown
          refine ⟨hholds, fun s => (hsame s).trans ?_⟩
          rw [Set.mem_insert_iff, List.mem_cons, not_or]
          constructor
          · rintro ⟨hs, hne, hmem⟩
            exact ⟨hs.resolve_left hne, hmem⟩
          · rintro ⟨hs, hmem⟩
            exact ⟨Or.inr hs, fun he => hr (he ▸ hs), hmem⟩
      | free r =>
          obtain ⟨-, hg⟩ := hg
          rw [hold] at hown
          split at hown
          · rename_i hr
            obtain ⟨hholds, hsame⟩ := ih hg (h.free r) hown
            refine ⟨hholds, fun s => (hsame s).trans ?_⟩
            rw [h.nodup.mem_erase_iff, Set.mem_sdiff, Set.mem_singleton_iff]
            constructor
            · rintro ⟨⟨hs, hne⟩, hmem⟩
              exact ⟨hs, fun hs' => hmem ⟨hne, hs'⟩⟩
            · rintro ⟨hs, hmem⟩
              exact ⟨⟨hs, fun he => hmem (he ▸ hr)⟩, fun he => hmem he.2⟩
          · cases hown

/-- What is in use and not the owner's is not freed. -/
theorem Goes.free_notMem {S T : Set ρ} {uses : List (Use ρ)} {own own' : List ρ}
    (hg : Goes S uses T) (hown : hold own uses = some own') {r : ρ} (hr : r ∈ S) (hr' : r ∉ own) :
    Use.free r ∉ uses := by
  induction uses generalizing S own with
  | nil => exact List.not_mem_nil
  | cons use uses ih =>
      cases use with
      | acquire s =>
          obtain ⟨hs, hg⟩ := hg
          have hne : r ≠ s := fun he => hs (he ▸ hr)
          refine List.not_mem_cons_of_ne_of_not_mem nofun ?_
          exact ih hg hown (Set.mem_insert_of_mem s hr) (List.not_mem_cons_of_ne_of_not_mem hne hr')
      | free s =>
          obtain ⟨-, hg⟩ := hg
          rw [hold] at hown
          split at hown
          · rename_i hs
            have hne : r ≠ s := fun he => hr' (he ▸ hs)
            refine List.not_mem_cons_of_ne_of_not_mem (fun he => hne (Use.free.inj he)) ?_
            exact ih hg hown ⟨hr, hne⟩ fun hmem => hr' (List.mem_of_mem_erase hmem)
          · cases hown

open scoped Classical in
theorem Goes.count {S T : Set ρ} {uses : List (Use ρ)} (hg : Goes S uses T) (r : ρ) :
    uses.count (.acquire r) + (if r ∈ S then 1 else 0) =
      uses.count (.free r) + (if r ∈ T then 1 else 0) := by
  induction uses generalizing S with
  | nil =>
      obtain rfl := hg
      rfl
  | cons use uses ih =>
      cases use with
      | acquire s =>
          obtain ⟨hs, hg⟩ := hg
          have hrest := ih hg
          rw [List.count_cons_of_ne (b := Use.acquire s) (a := Use.free r) nofun]
          by_cases hrs : r = s
          · subst hrs
            rw [if_pos (Set.mem_insert r S)] at hrest
            rw [List.count_cons_self, if_neg hs]
            exact hrest
          · have hmem : r ∈ insert s S ↔ r ∈ S := Set.mem_insert_iff.trans (or_iff_right hrs)
            simp only [hmem] at hrest
            rw [List.count_cons_of_ne fun he => hrs (Use.acquire.inj he).symm]
            exact hrest
      | free s =>
          obtain ⟨hs, hg⟩ := hg
          have hrest := ih hg
          rw [List.count_cons_of_ne (b := Use.free s) (a := Use.acquire r) nofun]
          by_cases hrs : r = s
          · subst hrs
            rw [if_neg fun h => h.2 rfl] at hrest
            rw [List.count_cons_self, if_pos hs]
            omega
          · have hmem : r ∈ S \ {s} ↔ r ∈ S := and_iff_left hrs
            simp only [hmem] at hrest
            rw [List.count_cons_of_ne fun he => hrs (Use.free.inj he).symm]
            exact hrest

/-- When as much is in use as before, everything was freed as often as it was acquired. -/
theorem Goes.balanced {S : Set ρ} {uses : List (Use ρ)} (hg : Goes S uses S) (r : ρ) :
    uses.count (.acquire r) = uses.count (.free r) := by
  classical
  exact Nat.add_right_cancel (hg.count r)

/-! ## Many owners -/

/-- What is in use is `S₀`, and what the owners hold, apart from it and from each other. -/
structure Split {ι : Type*} (S₀ : Set ρ) (own : ι → List ρ) (S : Set ρ) : Prop where
  nodup : ∀ i, (own i).Nodup
  apart : ∀ i j, i ≠ j → ∀ r ∈ own i, r ∉ own j
  since : ∀ i, ∀ r ∈ own i, r ∉ S₀
  inUse : ∀ r, r ∈ S ↔ r ∈ S₀ ∨ ∃ i, r ∈ own i

section Split

variable {ι : Type*} [DecidableEq ι] {S₀ S T : Set ρ} {own : ι → List ρ} {uses : List (Use ρ)}
  {own' : List ρ}

omit [DecidableEq ρ] [DecidableEq ι] in
theorem Split.holds (h : Split S₀ own S) (i : ι) : Holds (own i) S :=
  ⟨h.nodup i, fun r hr => (h.inUse r).mpr (Or.inr ⟨i, hr⟩)⟩

omit [DecidableEq ρ] [DecidableEq ι] in
/-- No owner holds anything. -/
theorem Split.of_nil (hnil : ∀ i, own i = []) : Split S own S := by
  have hnone : ∀ i r, r ∉ own i := by
    intro i r
    rw [hnil i]
    exact List.not_mem_nil
  refine ⟨?_, fun i _ _ r hr => absurd hr (hnone i r), fun i r hr => absurd hr (hnone i r), ?_⟩
  · intro i
    rw [hnil i]
    exact List.nodup_nil
  · refine fun r => (or_iff_left ?_).symm
    rintro ⟨i, hr⟩
    exact hnone i r hr

omit [DecidableEq ρ] [DecidableEq ι] in
/-- When the owners hold nothing, as much is in use as there was without them. -/
theorem Split.eq_of_nil (h : Split S₀ own S) (hnil : ∀ i, own i = []) : S = S₀ := by
  ext r
  rw [h.inUse r]
  refine or_iff_left ?_
  rintro ⟨i, hr⟩
  rw [hnil i] at hr
  exact List.not_mem_nil hr

/-- One owner acts. -/
theorem Split.step (h : Split S₀ own S) (hg : Goes S uses T) (i : ι)
    (hown : hold (own i) uses = some own') : Split S₀ (Function.update own i own') T := by
  obtain ⟨hholds, hsame⟩ := hg.others (h.holds i) hown
  -- what is not the owner's stays as it is
  have hother : ∀ j, j ≠ i → ∀ r ∈ own j, r ∈ T ∧ r ∉ own' := fun j hj r hr =>
    (hsame r).mpr ⟨(h.inUse r).mpr (Or.inr ⟨j, hr⟩), h.apart j i hj r hr⟩
  have hbase : ∀ r ∈ S₀, r ∈ T ∧ r ∉ own' := fun r hr =>
    (hsame r).mpr ⟨(h.inUse r).mpr (Or.inl hr), fun hmem => h.since i r hmem hr⟩
  refine ⟨?_, ?_, ?_, ?_⟩
  · intro j
    by_cases hj : j = i
    · rw [hj, Function.update_self]
      exact hholds.nodup
    · rw [Function.update_of_ne hj]
      exact h.nodup j
  · intro j k hjk r hr
    by_cases hj : j = i
    · have hk : k ≠ i := fun he => hjk (hj.trans he.symm)
      rw [hj, Function.update_self] at hr
      rw [Function.update_of_ne hk]
      exact fun hmem => (hother k hk r hmem).2 hr
    · rw [Function.update_of_ne hj] at hr
      by_cases hk : k = i
      · rw [hk, Function.update_self]
        exact (hother j hj r hr).2
      · rw [Function.update_of_ne hk]
        exact h.apart j k hjk r hr
  · intro j r hr hr₀
    by_cases hj : j = i
    · rw [hj, Function.update_self] at hr
      exact (hbase r hr₀).2 hr
    · rw [Function.update_of_ne hj] at hr
      exact h.since j r hr hr₀
  · intro r
    constructor
    · intro hr
      by_cases hmem : r ∈ own'
      · exact Or.inr ⟨i, by rwa [Function.update_self]⟩
      · obtain ⟨hS, hnot⟩ := (hsame r).mp ⟨hr, hmem⟩
        refine ((h.inUse r).mp hS).imp_right ?_
        rintro ⟨j, hj⟩
        have hne : j ≠ i := fun he => hnot (he ▸ hj)
        exact ⟨j, by rwa [Function.update_of_ne hne]⟩
    · rintro (hr | ⟨j, hr⟩)
      · exact (hbase r hr).1
      · by_cases hj : j = i
        · rw [hj, Function.update_self] at hr
          exact hholds.inUse r hr
        · rw [Function.update_of_ne hj] at hr
          exact (hother j hj r hr).1

omit [DecidableEq ι] in
/-- What acts without holding anything, before or after, changes nothing. -/
theorem Split.step_nil (h : Split S₀ own S) (hg : Goes S uses T)
    (hown : hold [] uses = some []) : Split S₀ own T := by
  have hnone : Holds [] S := ⟨List.nodup_nil, fun _ hr => absurd hr List.not_mem_nil⟩
  have hsame := (hg.others hnone hown).2
  have hT : T = S := by
    ext r
    have hr := hsame r
    rwa [and_iff_left List.not_mem_nil, and_iff_left List.not_mem_nil] at hr
  exact hT ▸ h

end Split

end Ledger
