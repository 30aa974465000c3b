/-
The way back through a database, and runs of calls on its iterator.

The versions of a key are passed from the oldest on, so the loop of `FindPrevUserEntry` keeps a
candidate until a visible version of a smaller key ends it (`Back`). With all calls described,
`run_came` says what every run of them shows: the entries of the map, but for the turns of
`next_turn`. Without these, when nothing is newer than the iterator or all calls look forward, it
is what a cursor on the sorted list of the entries shows (`turnCall_run`).
-/
import Tablefs.LevelDb.DbIter

set_option autoImplicit false

namespace Tablefs

namespace LevelDb

open ByteString

namespace DBIter

variable {σ : Type*}

section Spec

variable {c : Cursor σ Bytes Bytes} {vs : List Version} {n : ℕ} {m : SortedMap Bytes Bytes}
  {Fits : Bytes → Prop} {Good : σ → Prop}
  (hw : c.Walks internalRank (vs.map encoded) Fits Good) (hv : Versions vs) (hn : n < 2 ^ 56)
  (hm : Shows vs n m)

/-! ## Backward -/

/-- What the loop of `FindPrevUserEntry` knows: `P` are the keys that may be shown, and `cand` is
the newest version it has seen of the key it is in, if that is a value. -/
structure Back (vs : List Version) (n : ℕ) (as bs : List Version)
    (cand : Option (Bytes × Bytes × ℕ)) (P : Bytes → Bool) : Prop where
  inside : ∀ v ∈ as, v.2 ≤ n → P v.1.1 = true
  pending : ∀ k val i, Updates.Seen vs n ((k, some val), i) → P k = true →
    ((k, some val), i) ∈ as ∨ cand = some (k, val, i)
  known : ∀ k val i, cand = some (k, val, i) → P k = true ∧ ((k, some val), i) ∈ bs ∧ i ≤ n ∧
    ∀ w ∈ bs, w.2 ≤ n → k ≤ w.1.1 ∧ (w.1.1 = k → w.2 ≤ i)

/-- `value_type`, `saved_key_` and `saved_value_` are those of the candidate. -/
def Saved (cand : Option (Bytes × Bytes × ℕ)) (value_type : ValueType) (it : DBIter σ) : Prop :=
  match cand with
  | none => value_type = .kTypeDeletion
  | some (k, val, _) => value_type = .kTypeValue ∧ it.saved_key_ = k ∧ it.saved_value_ = val

theorem Back.skip {as bs : List Version} {cand : Option (Bytes × Bytes × ℕ)} {P : Bytes → Bool}
    {a : Version} (h : Back vs n (as ++ [a]) bs cand P) (ha : ¬ a.2 ≤ n) :
    Back vs n as (a :: bs) cand P where
  inside v hv := h.inside v (List.mem_append_left _ hv)
  pending k val i hs hP := by
    rcases h.pending k val i hs hP with hmem | hc
    · rcases List.mem_append.mp hmem with hmem | hmem
      · exact Or.inl hmem
      · rw [← List.mem_singleton.mp hmem] at ha
        exact absurd hs.le ha
    · exact Or.inr hc
  known k val i hc := by
    obtain ⟨hP, hmem, hi, hall⟩ := h.known k val i hc
    refine ⟨hP, List.mem_cons_of_mem a hmem, hi, fun w hw hwn => ?_⟩
    rcases List.mem_cons.mp hw with rfl | hw
    · exact absurd hwn ha
    · exact hall w hw hwn

include hv in
/-- The version in front is visible, and of the candidate's key or there is none. -/
theorem Back.take {as bs : List Version} {cand : Option (Bytes × Bytes × ℕ)} {P : Bytes → Bool}
    {k : Bytes} {r : Option Bytes} {i : ℕ} (hsplit : vs = (as ++ [((k, r), i)]) ++ bs)
    (h : Back vs n (as ++ [((k, r), i)]) bs cand P) (hi : i ≤ n)
    (hstay : ∀ k' val' i', cand = some (k', val', i') → ¬ k < k') :
    Back vs n as (((k, r), i) :: bs) (r.map fun val => (k, val, i)) P where
  inside v hv := h.inside v (List.mem_append_left _ hv)
  pending := by
    intro k' val' i' hs hP
    rcases h.pending k' val' i' hs hP with hmem | hc
    · rcases List.mem_append.mp hmem with hmem | hmem
      · exact Or.inl hmem
      · obtain ⟨⟨rfl, rfl⟩, rfl⟩ : (k' = k ∧ some val' = r) ∧ i' = i := by
          simpa using List.mem_singleton.mp hmem
        exact Or.inr rfl
    · -- the candidate is older than the version in front
      exfalso
      have hlast : (((k, r), i) : Version) ∈ as ++ [((k, r), i)] :=
        List.mem_append_right as (List.mem_singleton.mpr rfl)
      have hmem := (h.known k' val' i' hc).2.1
      have hk : k' = k :=
        le_antisymm (le_of_not_gt (hstay k' val' i' hc)) (hv.key_le hsplit hlast hmem)
      have hnew := hv.newer hsplit hlast hmem hk
      have hold := hs.newest _ (by rw [hsplit]; exact List.mem_append_left _ hlast) hk.symm hi
      exact absurd hold (Nat.not_le_of_lt hnew)
  known := by
    intro k' val' i' hc
    obtain ⟨val, rfl, he⟩ := Option.map_eq_some_iff.mp hc
    obtain ⟨rfl, rfl, rfl⟩ : k = k' ∧ val = val' ∧ i = i' := by simpa using he
    have hlast : (((k, some val), i) : Version) ∈ as ++ [((k, some val), i)] :=
      List.mem_append_right as (List.mem_singleton.mpr rfl)
    refine ⟨h.inside _ hlast hi, List.mem_cons_self, hi, fun w hw _ => ?_⟩
    rcases List.mem_cons.mp hw with rfl | hw
    · exact ⟨le_refl _, fun _ => le_refl _⟩
    · exact ⟨hv.key_le hsplit hlast hw, fun hk => (hv.newer hsplit hlast hw hk).le⟩

include hm in
/-- With nothing before the candidate's key, the candidate is what is shown. -/
theorem Back.stop {as bs : List Version} {P : Bytes → Bool} {k val : Bytes} {i : ℕ}
    (hsplit : vs = as ++ bs) (h : Back vs n as bs (some (k, val, i)) P)
    (hlow : ∀ a ∈ as, a.1.1 < k) :
    m.get k = some val ∧ m.entries.reverse.find? (fun e => P e.1) = some (k, val) := by
  obtain ⟨hP, hmem, hi, hall⟩ := h.known k val i rfl
  have hseen : Updates.Seen vs n ((k, some val), i) := by
    refine ⟨by rw [hsplit]; exact List.mem_append_right as hmem, hi, fun w hw hk hwn => ?_⟩
    rw [hsplit] at hw
    rcases List.mem_append.mp hw with hw | hw
    · exact absurd hk (hlow w hw).ne
    · exact (hall w hw hwn).2 hk
  have hsorted : Cursor.Sorted (fun k : Bytes => k) m.entries := m.sorted
  refine ⟨(hm k val).mpr ⟨i, hseen⟩, (hsorted.find_reverse_eq_some (x := (k, val))).mpr
    ⟨(hm.mem_iff (k, val)).mpr ⟨i, hseen⟩, hP, fun e he hPe => ?_⟩⟩
  obtain ⟨j, hseen'⟩ := (hm.mem_iff e).mp he
  rcases h.pending e.1 e.2 j hseen' hPe with hmem' | hc
  · exact (hlow _ hmem').le
  · obtain ⟨rfl, -, -⟩ : k = e.1 ∧ val = e.2 ∧ i = j := by simpa using hc
    exact le_refl _

/-- What `FindPrevUserEntry` finds: nothing, or an entry. -/
def Found (c : Cursor σ Bytes Bytes) (vs : List Version) (n : ℕ) (m : SortedMap Bytes Bytes)
    (Good : σ → Prop) (o : Option (Bytes × Bytes)) (r : ValueType × DBIter σ) : Prop :=
  match o with
  | none => r.1 = .kTypeDeletion ∧ Good r.2.iter_
  | some e => r.1 = .kTypeValue ∧ r.2.saved_key_ = e.1 ∧ r.2.saved_value_ = e.2 ∧
      m.get e.1 = some e.2 ∧ ∃ as bs, Last c vs Good r.2 as bs ∧ (∀ a ∈ as, a.1.1 < e.1) ∧
        (∀ b ∈ bs, b.2 ≤ n → e.1 ≤ b.1.1) ∧ ∀ a ∈ as.reverse.head?, a.2 ≤ n

include hm in
/-- The loop stops where nothing of the candidate's key is left. -/
theorem Back.found {as bs : List Version} {cand : Option (Bytes × Bytes × ℕ)} {P : Bytes → Bool}
    {value_type : ValueType} {it : DBIter σ} (hat : Last c vs Good it as bs)
    (h : Back vs n as bs cand P) (hsaved : Saved cand value_type it)
    (hstop : ∀ a ∈ as.reverse.head?, a.2 ≤ n)
    (hlow : match cand with
      | none => as = []
      | some (k, _, _) => ∀ a ∈ as, a.1.1 < k) :
    Found c vs n m Good (m.entries.reverse.find? fun e => P e.1) (value_type, it) := by
  rcases cand with _ | ⟨k, val, i⟩
  · have hnone : m.entries.reverse.find? (fun e => P e.1) = none := by
      refine List.find?_eq_none.mpr fun e he hP => ?_
      obtain ⟨j, hseen⟩ := (hm.mem_iff e).mp (List.mem_reverse.mp he)
      rcases h.pending e.1 e.2 j hseen hP with hmem | hc
      · rw [show as = [] from hlow] at hmem
        cases hmem
      · cases hc
    rw [hnone]
    exact ⟨hsaved, hat.2.good⟩
  · obtain ⟨hget, hfind⟩ := h.stop hm hat.1 hlow
    obtain ⟨hP, hmem, hi, hall⟩ := h.known k val i rfl
    obtain ⟨htype, hkey, hval⟩ := hsaved
    rw [hfind]
    exact ⟨htype, hkey, hval, hget, as, bs, hat, hlow, fun b hb hbn => (hall b hb hbn).1, hstop⟩

include hw hv hn hm in
theorem prevLoop_spec {t : ℕ} {value_type : ValueType} {it : DBIter σ} {as bs : List Version}
    {cand : Option (Bytes × Bytes × ℕ)} {P : Bytes → Bool} (hat : Last c vs Good it as bs)
    (h : Back vs n as bs cand P) (hsaved : Saved cand value_type it) (hfuel : as.length < t) :
    ∃ r, prevLoop c (.ofNat n) t value_type it = some r ∧ r.2.status_ = it.status_ ∧
      r.2.direction_ = it.direction_ ∧
      Found c vs n m Good (m.entries.reverse.find? fun e => P e.1) r := by
  induction t generalizing value_type it as bs cand with
  | zero => exact absurd hfuel (Nat.not_lt_zero _)
  | succ t ih =>
      rw [prevLoop]
      have hentry := hat.2.entry
      rcases List.eq_nil_or_concat as with rfl | ⟨as', a, rfl⟩
      · rw [List.map_nil, List.reverse_nil, List.head?_nil] at hentry
        rw [hentry]
        refine ⟨_, rfl, rfl, rfl, h.found hm hat hsaved nofun ?_⟩
        rcases cand with _ | ⟨k, val, i⟩
        · rfl
        · exact nofun
      · rw [List.concat_eq_append] at hat h hentry hfuel
        obtain ⟨⟨k, r⟩, i⟩ := a
        have hmem : (((k, r), i) : Version) ∈ vs := by
          rw [hat.1]
          exact List.mem_append_left bs (List.mem_append_right as' (List.mem_singleton.mpr rfl))
        have hi := hv.lt _ hmem
        have hprev := Head.prev hw (Last.head hat)
        have hfuel' : as'.length < t := by
          rw [List.length_append, List.length_singleton] at hfuel
          omega
        rw [List.map_append, List.map_singleton, List.reverse_append, List.reverse_singleton,
          List.singleton_append, List.head?_cons] at hentry
        rw [hentry]
        dsimp only
        rw [parse_encoded hi]
        dsimp only
        by_cases hin : i ≤ n
        · rw [if_pos ((sequence_le_iff hi hn).mpr hin)]
          by_cases hbreak : value_type ≠ .kTypeDeletion ∧ sliceCompare k it.saved_key_ < 0
          · rw [if_pos hbreak]
            have hstop : ∀ a ∈ (as' ++ [(((k, r), i) : Version)]).reverse.head?, a.2 ≤ n := by
              intro a ha
              rw [List.reverse_append] at ha
              obtain rfl : ((k, r), i) = a := Option.some.inj ha
              exact hin
            refine ⟨_, rfl, rfl, rfl, h.found hm hat hsaved hstop ?_⟩
            rcases cand with _ | ⟨k', val', i'⟩
            · exact absurd hsaved hbreak.1
            · intro a ha
              have hlt := sliceCompare_lt.mp hbreak.2
              rw [hsaved.2.1] at hlt
              refine lt_of_le_of_lt ?_ hlt
              rcases List.mem_append.mp ha with ha | ha
              · have hsplit : vs = as' ++ (((k, r), i) :: bs) := by
                  rw [hat.1, List.append_assoc]
                  rfl
                exact hv.key_le hsplit ha List.mem_cons_self
              · rw [List.mem_singleton.mp ha]
          · rw [if_neg hbreak]
            have htake := h.take hv hat.1 hin fun k' val' i' hc hlt => by
              rw [hc] at hsaved
              obtain ⟨htype, hkey, -⟩ := hsaved
              exact hbreak ⟨by rw [htype]; decide, sliceCompare_lt.mpr (hkey ▸ hlt)⟩
            cases r with
            | none =>
                have hsaved' : Saved none .kTypeDeletion
                    { it.stepPrev c with saved_key_ := [], saved_value_ := [] } := rfl
                exact ih hprev htake hsaved' hfuel'
            | some val =>
                have hsaved' : Saved (some (k, val, i)) .kTypeValue
                    { it.stepPrev c with
                      saved_key_ := extractUserKey (encoded ((k, some val), i)).1
                      saved_value_ := val } := ⟨rfl, user_encoded _, rfl⟩
                exact ih hprev htake hsaved' hfuel'
        · rw [if_neg fun hle => hin ((sequence_le_iff hi hn).mp hle)]
          exact ih hprev (h.skip hin) hsaved hfuel'

/-- The iterator shows this, and has come to it in this direction. -/
structure Came (c : Cursor σ Bytes Bytes) (vs : List Version) (n : ℕ) (m : SortedMap Bytes Bytes)
    (Good : σ → Prop) (it : DBIter σ) (o : Option (Bytes × Bytes)) (d : Direction) : Prop where
  stands : Stands c vs n m Good it o
  direction : o.isSome → it.direction_ = d

include hw hv hn hm in
theorem findPrev_spec {t : ℕ} {it : DBIter σ} {as bs : List Version} {P : Bytes → Bool}
    (hat : Last c vs Good it as bs) (hdir : it.direction_ = .kReverse)
    (hinside : ∀ v ∈ as, v.2 ≤ n → P v.1.1 = true)
    (hpending : ∀ k val i, Updates.Seen vs n ((k, some val), i) → P k = true →
      ((k, some val), i) ∈ as) (hfuel : vs.length < t) :
    ∃ it', findPrevUserEntry c (.ofNat n) t it = some it' ∧ it'.status_ = it.status_ ∧
      Came c vs n m Good it' (m.entries.reverse.find? fun e => P e.1) .kReverse := by
  have hback : Back vs n as bs none P :=
    ⟨hinside, fun k val i hs hP => Or.inl (hpending k val i hs hP), nofun⟩
  have hsaved : Saved none .kTypeDeletion it := rfl
  have hfuel' : as.length < t := by
    rw [hat.1, List.length_append] at hfuel
    omega
  obtain ⟨r, hloop, hstatus, hrdir, hfound⟩ := prevLoop_spec hw hv hn hm hat hback hsaved hfuel'
  rw [findPrevUserEntry, hloop, Option.map_some]
  refine ⟨_, rfl, ?_, ?_⟩
  · split <;> exact hstatus
  · cases hfind : m.entries.reverse.find? fun e => P e.1 with
    | none =>
        rw [hfind] at hfound
        rw [if_pos hfound.1]
        exact ⟨.ended hfound.2 rfl, nofun⟩
    | some e =>
        rw [hfind] at hfound
        obtain ⟨htype, hkey, hval, hget, as', bs', hlast, hlow, hhigh, hstop⟩ := hfound
        rw [if_neg (by rw [htype]; decide)]
        obtain ⟨k, val⟩ := e
        obtain rfl : r.2.saved_key_ = k := hkey
        obtain rfl : r.2.saved_value_ = val := hval
        have hst : Stands c vs n m Good { r.2 with valid_ := true }
            (some (r.2.saved_key_, r.2.saved_value_)) :=
          .reverse rfl (hrdir.trans hdir) hget hlow hhigh hstop hlast
        exact ⟨hst, fun _ => hrdir.trans hdir⟩

include hw hv hn hm in
theorem seekToLast_spec {t : ℕ} {it : DBIter σ} (hg : Good it.iter_) (hfuel : vs.length < t) :
    ∃ it', seekToLast c (.ofNat n) t it = some it' ∧ it'.status_ = it.status_ ∧
      Came c vs n m Good it' m.entries.reverse.head? .kReverse := by
  have hat := hw.atLast_seekToLast hg
  have hhead : m.entries.reverse.head? = m.entries.reverse.find? fun _ => true :=
    (Cursor.find_split (show ∀ a ∈ [], _ = false from nofun) fun _ _ => rfl).symm
  have hlast : Last c vs Good { it with
      direction_ := .kReverse
      saved_value_ := []
      iter_ := c.seekToLast it.iter_ } vs [] := ⟨(List.append_nil vs).symm, hat⟩
  rw [hhead]
  exact findPrev_spec hw hv hn hm (P := fun _ => true) hlast rfl (fun _ _ _ => rfl)
    (fun _ _ _ hs _ => hs.mem) hfuel

include hw hv hn hm in
/-- `Prev` leaves the entries of the current key. -/
theorem leaveKey_spec {t u : ℕ} {it : DBIter σ} {as bs : List Version} {v : Version}
    (hat : Head c vs Good it as (v :: bs)) (hkey : it.saved_key_ = v.1.1)
    (habove : ∀ b ∈ bs, v.1.1 ≤ b.1.1) (hfuel : as.length < u) (hfuel' : vs.length < t) :
    ∃ it', leaveKey c (.ofNat n) t u it = some it' ∧ it'.status_ = it.status_ ∧
      Came c vs n m Good it' (m.entries.reverse.find? fun e => e.1 < v.1.1) .kReverse := by
  induction u generalizing it as bs v with
  | zero => exact absurd hfuel (Nat.not_lt_zero _)
  | succ u ih =>
      rw [leaveKey]
      have hprev := Head.prev hw hat
      have hentry := hprev.2.entry
      -- an entry below has its version in front
      have hbelow : ∀ k val i, Updates.Seen vs n ((k, some val), i) → k < v.1.1 →
          ((k, some val), i) ∈ as := by
        intro k val i hs hlt
        have hmem := hs.mem
        rw [hat.1] at hmem
        rcases List.mem_append.mp hmem with hmem | hmem
        · exact hmem
        · rcases List.mem_cons.mp hmem with he | hmem
          · rw [← he] at hlt
            exact absurd hlt (lt_irrefl _)
          · exact absurd (habove _ hmem) (not_le_of_gt hlt)
      rcases List.eq_nil_or_concat as with rfl | ⟨as', a, rfl⟩
      · have hnone : m.entries.reverse.find? (fun e => decide (e.1 < v.1.1)) = none := by
          refine List.find?_eq_none.mpr fun e he hlt => ?_
          obtain ⟨i, hseen⟩ := (hm.mem_iff e).mp (List.mem_reverse.mp he)
          cases hbelow e.1 e.2 i hseen (of_decide_eq_true hlt)
        rw [hentry, hnone]
        exact ⟨_, rfl, rfl, .ended hprev.2.good rfl, nofun⟩
      · rw [List.concat_eq_append] at hprev hentry hat hfuel hbelow
        rw [List.map_append, List.map_singleton, List.reverse_append, List.reverse_singleton,
          List.singleton_append, List.head?_cons] at hentry
        rw [hentry]
        dsimp only
        rw [user_encoded]
        have hle : a.1.1 ≤ v.1.1 :=
          hv.key_le hat.1 (List.mem_append_right as' (List.mem_singleton.mpr rfl))
            List.mem_cons_self
        have hkey' : (it.stepPrev c).saved_key_ = v.1.1 := hkey
        split
        · rename_i hlt
          rw [hkey', sliceCompare_lt] at hlt
          have hlast : Last c vs Good { it.stepPrev c with direction_ := .kReverse }
              (as' ++ [a]) (v :: bs) := hprev
          refine findPrev_spec hw hv hn hm hlast rfl (fun w hw _ => decide_eq_true ?_)
            (fun k val i hs hk => hbelow k val i hs (of_decide_eq_true hk)) hfuel'
          have hsplit : vs = as' ++ (a :: v :: bs) := by
            rw [hat.1, List.append_assoc]
            rfl
          rcases List.mem_append.mp hw with hw | hw
          · exact (hv.key_le hsplit hw List.mem_cons_self).trans_lt hlt
          · rw [List.mem_singleton.mp hw]
            exact hlt
        · rename_i hnot
          rw [hkey', sliceCompare_lt] at hnot
          have heq : v.1.1 = a.1.1 := le_antisymm (le_of_not_gt hnot) hle
          rw [heq]
          refine ih (Last.head hprev) (hkey'.trans heq) (fun b hb => ?_) (by
            rw [List.length_append, List.length_singleton] at hfuel
            omega)
          rcases List.mem_cons.mp hb with rfl | hb
          · exact heq.symm.le
          · exact heq ▸ habove b hb

include hw hv hn hm in
/-- `Prev`, from either direction. -/
theorem prev_spec {t : ℕ} {it : DBIter σ} {e : Bytes × Bytes}
    (h : Stands c vs n m Good it (some e)) (hfuel : vs.length < t) :
    ∃ it', prev c (.ofNat n) t it = some it' ∧ it'.status_ = it.status_ ∧
      Came c vs n m Good it' (m.entries.reverse.find? fun e' => e'.1 < e.1) .kReverse := by
  cases h with
  | forward valid direction seen at_ =>
      rename_i as bs k val i
      have hentry : c.entry it.iter_ = some (encoded ((k, some val), i)) := at_.2.entry
      rw [prev, direction, hentry]
      dsimp only
      rw [user_encoded]
      have hhead : Head c vs Good { it with direction_ := .kForward, saved_key_ := k } as
          (((k, some val), i) :: bs) := at_
      have hsplit : vs = (as ++ [((k, some val), i)]) ++ bs := by rw [at_.1, List.append_cons]
      refine leaveKey_spec hw hv hn hm hhead rfl (fun b hb => hv.key_le hsplit
        (List.mem_append_right as (List.mem_singleton.mpr rfl)) hb) ?_ hfuel
      rw [at_.1, List.length_append] at hfuel
      omega
  | reverse valid direction shown below above stop at_ =>
      rename_i as bs
      rw [prev, direction]
      refine findPrev_spec hw hv hn hm (P := fun k => decide (k < it.saved_key_)) at_ direction
        (fun v hv _ => decide_eq_true (below v hv)) (fun k val i hs hk => ?_) hfuel
      have hmem := hs.mem
      rw [at_.1] at hmem
      rcases List.mem_append.mp hmem with hmem | hmem
      · exact hmem
      · exact absurd (above _ hmem hs.le) (not_le_of_gt (of_decide_eq_true hk))

/-! ## Runs -/

/-- A call on the iterator; `Next` and `Prev` are for a valid one. -/
def call (c : Cursor σ Bytes Bytes) (sequence_ : UInt64) (t : ℕ) (it : DBIter σ) :
    Cursor.Call Bytes → Option (DBIter σ)
  | .seekToFirst => seekToFirst c sequence_ t it
  | .seekToLast => seekToLast c sequence_ t it
  | .seek target => seek c sequence_ t target it
  | .next => if it.valid_ then next c sequence_ t it else some it
  | .prev => if it.valid_ then prev c sequence_ t it else some it

/-- The entries of a map, as a cursor. -/
abbrev listCursor (m : SortedMap Bytes Bytes) : Cursor (Option (Bytes × Bytes)) Bytes Bytes :=
  Cursor.ofList (fun k : Bytes => k) m.entries

theorem listCursor_next (m : SortedMap Bytes Bytes) (e : Bytes × Bytes) :
    (listCursor m).call (some e) .next = m.entries.find? fun e' => e.1 < e'.1 :=
  List.find?_congr fun _ _ => decide_eq_decide.mpr Iff.rfl

theorem listCursor_prev (m : SortedMap Bytes Bytes) (e : Bytes × Bytes) :
    (listCursor m).call (some e) .prev = m.entries.reverse.find? fun e' => e'.1 < e.1 :=
  List.find?_congr fun _ _ => decide_eq_decide.mpr Iff.rfl

theorem Stands.good {it : DBIter σ} {o : Option (Bytes × Bytes)} (h : Stands c vs n m Good it o) :
    Good it.iter_ := by
  cases h with
  | ended good valid => exact good
  | forward valid direction seen at_ => exact at_.2.good
  | reverse valid direction shown below above stop at_ => exact at_.2.good

theorem Stands.valid {it : DBIter σ} {o : Option (Bytes × Bytes)} (h : Stands c vs n m Good it o) :
    it.valid_ = o.isSome := by
  cases h with
  | ended good valid => exact valid
  | forward valid direction seen at_ => exact valid
  | reverse valid direction shown below above stop at_ => exact valid

/-- What a call shows, where the direction is that of the move before. -/
def turnCall (vs : List Version) (n : ℕ) (m : SortedMap Bytes Bytes)
    (s : Option (Bytes × Bytes) × Direction) :
    Cursor.Call Bytes → Option (Bytes × Bytes) × Direction
  | .seekToFirst => (m.entries.head?, .kForward)
  | .seekToLast => (m.entries.reverse.head?, .kReverse)
  | .seek target => ((listCursor m).call s.1 (.seek target), .kForward)
  | .next =>
      (s.1.bind fun e =>
        if s.2 = .kReverse then turned vs n m e else m.entries.find? fun e' => e.1 < e'.1,
        .kForward)
  | .prev => ((listCursor m).call s.1 .prev, .kReverse)

include hw hv hn hm in
theorem call_spec {t : ℕ} {it : DBIter σ} {s : Option (Bytes × Bytes) × Direction}
    (h : Came c vs n m Good it s.1 s.2) (a : Cursor.Call Bytes)
    (hfit : ∀ target, a = .seek target →
      Fits (appendInternalKey ⟨target, .ofNat n, kValueTypeForSeek⟩))
    (hfuel : vs.length < t) :
    ∃ it', it.call c (.ofNat n) t a = some it' ∧ it'.status_ = it.status_ ∧
      Came c vs n m Good it' (turnCall vs n m s a).1 (turnCall vs n m s a).2 := by
  obtain ⟨o, d⟩ := s
  obtain ⟨h, hd⟩ := h
  cases a with
  | seekToFirst =>
      obtain ⟨it', hcall, hstatus, hdir, hst⟩ := seekToFirst_spec hw hv hn hm h.good hfuel
      exact ⟨it', hcall, hstatus, hst, fun _ => hdir⟩
  | seekToLast => exact seekToLast_spec hw hv hn hm h.good hfuel
  | seek target =>
      obtain ⟨it', hcall, hstatus, hdir, hst⟩ :=
        seek_spec hw hv hn hm h.good (hfit target rfl) hfuel
      exact ⟨it', hcall, hstatus, hst, fun _ => hdir⟩
  | next =>
      rw [call, h.valid]
      cases o with
      | none => exact ⟨it, rfl, rfl, h, nofun⟩
      | some e =>
          obtain rfl := hd rfl
          cases hdir : it.direction_ with
          | kReverse =>
              obtain ⟨it', hcall, hstatus, hdir', hst⟩ := next_turn hw hv hn hm h hdir hfuel
              exact ⟨it', hcall, hstatus, hst, fun _ => hdir'⟩
          | kForward =>
              obtain ⟨it', hcall, hstatus, hdir', hst⟩ := next_forward hw hv hn hm h hdir hfuel
              exact ⟨it', hcall, hstatus, hst, fun _ => hdir'⟩
  | prev =>
      rw [call, h.valid]
      cases o with
      | none => exact ⟨it, rfl, rfl, h, nofun⟩
      | some e =>
          rw [turnCall, listCursor_prev]
          exact prev_spec hw hv hn hm h hfuel

include hw hv hn hm in
/-- A run of calls shows what `turnCall` says of it. -/
theorem run_came {t : ℕ} {it : DBIter σ} {s : Option (Bytes × Bytes) × Direction}
    (h : Came c vs n m Good it s.1 s.2) (calls : List (Cursor.Call Bytes))
    (hfit : ∀ target, .seek target ∈ calls →
      Fits (appendInternalKey ⟨target, .ofNat n, kValueTypeForSeek⟩))
    (hfuel : vs.length < t) :
    ∃ it', calls.foldlM (call c (.ofNat n) t) it = some it' ∧ it'.status_ = it.status_ ∧
      Came c vs n m Good it' (calls.foldl (turnCall vs n m) s).1
        (calls.foldl (turnCall vs n m) s).2 := by
  induction calls generalizing it s with
  | nil => exact ⟨it, rfl, rfl, h⟩
  | cons a calls ih =>
      obtain ⟨it₁, hcall, hstatus, h₁⟩ := call_spec hw hv hn hm h a
        (fun target ha => hfit target (ha ▸ List.mem_cons_self)) hfuel
      obtain ⟨it', hrun, hstatus', h'⟩ :=
        ih h₁ fun target ht => hfit target (List.mem_cons_of_mem a ht)
      refine ⟨it', ?_, hstatus'.trans hstatus, h'⟩
      rw [List.foldlM_cons, hcall]
      exact hrun

end Spec

/-- With nothing newer than the iterator, or on the way forward, a run shows what a cursor on the
entries shows. -/
theorem turnCall_run {vs : List Version} {n : ℕ} {m : SortedMap Bytes Bytes}
    {s : Option (Bytes × Bytes) × Direction} {calls : List (Cursor.Call Bytes)}
    (h : (∀ v ∈ vs, v.2 ≤ n) ∨ s.2 = .kForward ∧ ∀ a ∈ calls, a.Forward) :
    (calls.foldl (turnCall vs n m) s).1 = calls.foldl (listCursor m).call s.1 := by
  induction calls generalizing s with
  | nil => rfl
  | cons a calls ih =>
      -- a turn shows the next entry, and after a call that looks forward there is none
      have hstep : (turnCall vs n m s a).1 = (listCursor m).call s.1 a ∧
          (a.Forward → (turnCall vs n m s a).2 = .kForward) := by
        cases a with
        | seekToFirst => exact ⟨rfl, fun _ => rfl⟩
        | seekToLast => exact ⟨rfl, fun h => False.elim h⟩
        | seek target => exact ⟨rfl, fun _ => rfl⟩
        | next =>
            refine ⟨?_, fun _ => rfl⟩
            obtain ⟨_ | e, d⟩ := s
            · rfl
            · rw [listCursor_next, turnCall, Option.bind_some]
              split
              · rename_i hdir
                have hall := h.resolve_right fun hf => by
                  rw [hdir] at hf
                  cases hf.1
                have hold : newBelow vs n e.1 = false := by
                  rw [newBelow]
                  cases hhead : (vs.filter fun v => v.1.1 < e.1).reverse.head? with
                  | none => rfl
                  | some v =>
                      have hv := List.mem_reverse.mp (List.mem_of_head? hhead)
                      exact decide_eq_false
                        (Nat.not_lt_of_le (hall v (List.mem_filter.mp hv).1))
                rw [turned, hold]
                rfl
              · rfl
        | prev => exact ⟨rfl, fun h => False.elim h⟩
      rw [List.foldl_cons, List.foldl_cons, ← hstep.1]
      exact ih (h.imp_right fun hf =>
        ⟨hstep.2 (hf.2 a List.mem_cons_self), fun b hb => hf.2 b (List.mem_cons_of_mem a hb)⟩)

/-- A run of calls on a new iterator, over any versions. -/
theorem run_shows {c : Cursor σ Bytes Bytes} {vs : List Version} {n : ℕ}
    {m : SortedMap Bytes Bytes} {Fits : Bytes → Prop} {Good : σ → Prop}
    (hw : c.Walks internalRank (vs.map encoded) Fits Good) (hv : Versions vs) (hn : n < 2 ^ 56)
    (hm : Shows vs n m) {iter : σ} (hg : Good iter) (calls : List (Cursor.Call Bytes))
    (hfit : ∀ target, .seek target ∈ calls →
      Fits (appendInternalKey ⟨target, .ofNat n, kValueTypeForSeek⟩))
    {t : ℕ} (hfuel : vs.length < t) :
    ∃ it, calls.foldlM (call c (.ofNat n) t) (.new iter) = some it ∧ it.status_ = .ok ∧
      it.entry c = (calls.foldl (turnCall vs n m) (none, .kForward)).1 := by
  have hnew : Came c vs n m Good (.new iter) none .kForward := ⟨.ended hg rfl, nofun⟩
  obtain ⟨it, hrun, hstatus, hcame⟩ :=
    run_came hw hv hn hm (s := (none, .kForward)) hnew calls hfit hfuel
  exact ⟨it, hrun, hstatus, hcame.stands.entry⟩

/-- Versions of three keys; the middle one is the last that was written. -/
def threeVersions : List Version :=
  [(([97], some [1]), 1), (([98], some [2]), 3), (([99], some [3]), 2)]

/-- The first two writes. -/
def twoKeys : SortedMap Bytes Bytes := (SortedMap.empty.put [97] [1]).put [99] [3]

theorem threeVersions_sorted : Versions threeVersions := ⟨by decide, by decide⟩

theorem threeVersions_shows : Shows threeVersions 2 twoKeys := by
  have hmem : ∀ v, v ∈ threeVersions ↔ v ∈ ([] : List Version) ∨ v ∈ threeVersions := fun v => by
    simp
  have hperm : threeVersions.Perm
      ([([97], some [1]), ([99], some [3]), ([98], some [2])].zipIdx (0 + 1)) := by decide
  refine Updates.get_later (m := .empty) hmem nofun threeVersions_sorted.sorted hperm
    (Nat.zero_le 2) fun k r => ⟨nofun, fun h => ?_⟩
  obtain ⟨i, h⟩ := h
  cases h.mem

/-- The cursor on the versions. -/
abbrev threeCursor : Cursor (Option (Bytes × Bytes)) Bytes Bytes :=
  .ofList internalRank (threeVersions.map encoded)

theorem threeCursor_walks : threeCursor.Walks internalRank (threeVersions.map encoded)
    (fun _ => True) fun s => ∀ x ∈ s, x ∈ threeVersions.map encoded :=
  Cursor.ofList_walks (encoded_sorted threeVersions_sorted) fun _ _ => trivial

/-- The last key is shown twice. -/
theorem threeVersions_turn :
    ∃ it, [Cursor.Call.seekToLast, .next].foldlM (call threeCursor (.ofNat 2) 4) (.new none)
        = some it ∧ it.status_ = .ok ∧
      it.entry threeCursor
        = ([Cursor.Call.seekToLast, .next].foldl (turnCall threeVersions 2 twoKeys)
            (none, .kForward)).1 :=
  run_shows threeCursor_walks threeVersions_sorted (by decide) threeVersions_shows
    (fun _ h => by cases h) _ (fun _ _ => trivial) (by decide)

example : ([Cursor.Call.seekToLast, .next].foldl (turnCall threeVersions 2 twoKeys)
    (none, .kForward)).1 = some ([99], [3]) := by decide

end DBIter

end LevelDb

end Tablefs
