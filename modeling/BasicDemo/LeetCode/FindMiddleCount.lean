import BasicDemo.Library.Pivots

namespace BasicDemo.LeetCode.FindMiddleCount
open Library.Loops Library.Arrays Library.Pivots

/-- The array and the two indices of `PartSort`. -/
structure Scan where
  a : List Int
  low : Int
  high : Int

section Programs

-- The accesses to the array are a parameter, as for the other partition.
variable (A : Access Int)

/-- One round of the outer loop. -/
def closeIn (key : Int) (s : Scan) : Except (Stop Fault) (Round Scan Scan) :=
  if s.low < s.high then do
    let low ← A.scanUp (fun x => x ≤ key) s.a s.low s.high
    let high ← A.scanDown (fun x => x ≥ key) s.a low s.high
    if low < high then
      let a ← A.swap s.a low high
      return .next ⟨a, low, high⟩
    else return .next ⟨s.a, low, high⟩
  else .ok (.leave s)

/-- The array as it is left, with the place of the pivot. `stop` is called `end` in the
source. -/
def partSortBy (fuel : Nat) (a : List Int) (start stop : Int) :
    Except (Stop Fault) (List Int × Int) := do
  let key ← A.read a stop
  let s ← whileLoop (closeIn A key) fuel ⟨a, start, stop⟩
  let a ← A.swap s.a s.high stop
  return (a, s.low)

end Programs

def partSort : Nat → List Int → Int → Int → Except (Stop Fault) (List Int × Int) :=
  partSortBy .plain

/-- The array and the place of the last pivot. -/
structure Search where
  list : List Int
  div : Int

/-- One round of the search. -/
def narrow (fuel : Nat) (low high mid : Int) (s : Search) :
    Except (Stop Fault) (Round Search Search) :=
  if s.div ≠ mid then
    if mid < s.div then do
      let (list, div) ← partSort fuel s.list low (s.div - 1)
      return .next ⟨list, div⟩
    else do
      let (list, div) ← partSort fuel s.list (s.div + 1) high
      return .next ⟨list, div⟩
  else .ok (.leave s)

/-- The value returned, with the array as it is left. -/
def findMiddleCount (fuel : Nat) (list : List Int) (aLen : Int) :
    Except (Stop Fault) (Int × List Int) := do
  let low := 0
  let high := aLen - 1
  let mid := (aLen - 1).tdiv 2
  let (list, div) ← partSort fuel list low high
  let s ← whileLoop (narrow fuel low high mid) fuel ⟨list, div⟩
  let x ← read s.list mid
  return (x, s.list)

/-- The scan from the right passes `r` and then cells of `rest`, up to the last one that is
smaller than the pivot. -/
theorem scanDown_behind (key r : Int) (front rest back : List Int) {i j : Int} (hr : key ≤ r)
    (hi : i = front.length - 1) (hj : j = (front ++ rest).length) :
    ∃ kept passed, rest = kept ++ passed ∧
      Access.plain.scanDown (fun x => decide (x ≥ key)) (front ++ rest ++ r :: back) i j =
        .ok (i + kept.length) ∧
      (∀ x ∈ passed, key ≤ x) ∧ ∀ u left, kept = left ++ [u] → u < key := by
  have hj : j = (front ++ (rest ++ [r])).length - 1 := by
    simp only [hj, List.length_append, List.length_singleton]
    omega
  obtain ⟨kept, passed, hsplit, hscan, hpassed, hkept⟩ :=
    scanDown_ok (fun x => decide (x ≥ key)) front (rest ++ [r]) back hi hj
  rcases List.eq_nil_or_concat' passed with rfl | ⟨passed, x, rfl⟩
  · have hlast : ¬ r ≥ key := by simpa using hkept r rest (by simpa using hsplit.symm)
    omega
  · rw [← List.append_assoc] at hsplit
    obtain ⟨rfl, -⟩ := List.append_inj' hsplit rfl
    refine ⟨kept, passed, rfl, ?_, ?_, ?_⟩
    · simp only [List.append_assoc, List.singleton_append] at hscan ⊢
      rw [hscan, List.length_append]
      congr 1
      omega
    · intro y hy
      simpa using hpassed y (by simp [hy])
    · intro u left he
      simpa using hkept u left he

/-- A round, from where the two scans stop. -/
theorem closeIn_of_scans {key : Int} {s : Scan} {low high : Int} (hlt : s.low < s.high)
    (hup : Access.plain.scanUp (fun x => decide (x ≤ key)) s.a s.low s.high = .ok low)
    (hdown : Access.plain.scanDown (fun x => decide (x ≥ key)) s.a low s.high = .ok high) :
    (high ≤ low → closeIn .plain key s = .ok (.next ⟨s.a, low, high⟩)) ∧
      ∀ a, low < high → Access.plain.swap s.a low high = .ok a →
        closeIn .plain key s = .ok (.next ⟨a, low, high⟩) := by
  constructor
  · intro hle
    simp only [closeIn, if_pos hlt, hup, hdown, lift_ok, ok_bind]
    rw [if_neg (by omega)]
    rfl
  · intro a hless hswap
    simp only [closeIn, if_pos hlt, hup, hdown, hswap, lift_ok, ok_bind]
    rw [if_pos hless]
    rfl

/-- A round on the cells `mid`, with a cell `r` behind them that is not smaller than the
pivot: all are passed from the left, or all from the right, or two are exchanged. -/
theorem closeIn_ok (key r : Int) (front mid back : List Int) {i j : Int} (hr : key ≤ r)
    (hi : i = front.length) (hj : j = (front ++ mid).length) (hlt : i < j) :
    (closeIn .plain key ⟨front ++ mid ++ r :: back, i, j⟩ =
        .ok (.next ⟨front ++ mid ++ r :: back, j, j⟩) ∧ ∀ x ∈ mid, x ≤ key) ∨
      ∃ small t rest, mid = small ++ t :: rest ∧ (∀ x ∈ small, x ≤ key) ∧ key < t ∧
        ((closeIn .plain key ⟨front ++ mid ++ r :: back, i, j⟩ =
            .ok (.next ⟨front ++ mid ++ r :: back, i + small.length, i + small.length⟩) ∧
          ∀ x ∈ rest, key ≤ x) ∨
        ∃ left u right, rest = left ++ u :: right ∧ u < key ∧ (∀ x ∈ right, key ≤ x) ∧
          closeIn .plain key ⟨front ++ mid ++ r :: back, i, j⟩ =
            .ok (.next ⟨front ++ small ++ u :: left ++ t :: (right ++ r :: back),
              i + small.length, i + small.length + 1 + left.length⟩)) := by
  obtain ⟨small, rest, rfl, hup, hsmall, hrest⟩ := scanUp_ok (fun x => decide (x ≤ key))
    front mid (r :: back) hi hj
  have hsmall : ∀ x ∈ small, x ≤ key := by simpa using hsmall
  have hlow : ((front ++ small).length : Int) = i + small.length := by
    rw [hi, List.length_append]
    omega
  rw [← List.append_assoc, List.length_append, Int.natCast_add, hlow] at hj
  rw [hlow] at hup
  cases rest with
  | nil =>
    rw [List.length_nil] at hj
    have hsame : i + (small.length : Int) = j := by omega
    have hdown : Access.plain.scanDown (fun x => decide (x ≥ key))
        (front ++ (small ++ []) ++ r :: back) j j = .ok j := by
      rw [Access.scanDown, if_neg (by omega)]
    rw [hsame] at hup
    exact Or.inl ⟨(closeIn_of_scans hlt hup hdown).1 (Int.le_refl j), by simpa using hsmall⟩
  | cons t rest =>
    have ht : key < t := by simpa using hrest t rest rfl
    refine Or.inr ⟨small, t, rest, rfl, hsmall, ht, ?_⟩
    rw [List.length_cons] at hj
    obtain ⟨kept, right, rfl, hdown, hright, hkept⟩ := scanDown_behind key r
      (front ++ small ++ [t]) rest back (i := i + small.length) (j := j) hr
      (by rw [List.length_append, List.length_singleton]; omega)
      (by simp only [List.length_append, List.length_singleton] at hlow ⊢; omega)
    have hshape : front ++ small ++ [t] ++ (kept ++ right) ++ r :: back =
      front ++ (small ++ t :: (kept ++ right)) ++ r :: back := by simp
    rw [hshape] at hdown
    rcases List.eq_nil_or_concat' kept with rfl | ⟨left, u, rfl⟩
    · rw [List.length_nil, Int.natCast_zero, Int.add_zero] at hdown
      exact Or.inl ⟨(closeIn_of_scans hlt hup hdown).1 (Int.le_refl _), hright⟩
    · have hu := hkept u left rfl
      have hplace : i + (small.length : Int) + ((left ++ [u]).length : Int) =
          i + small.length + 1 + left.length := by
        rw [List.length_append, List.length_singleton]
        omega
      have hcells : front ++ (small ++ t :: (left ++ [u] ++ right)) ++ r :: back =
          front ++ small ++ t :: left ++ u :: (right ++ r :: back) := by simp
      have hbehind : i + (small.length : Int) + 1 + left.length =
          (front ++ small ++ t :: left).length := by
        simp only [List.length_append, List.length_cons] at hlow ⊢
        omega
      obtain ⟨hswap, -⟩ := swap_mid (front ++ small) left (right ++ r :: back) t u hlow.symm hbehind
      refine Or.inr ⟨left, u, right, by simp, hu, hright, ?_⟩
      rw [hplace] at hdown
      rw [hcells] at hup hdown ⊢
      exact (closeIn_of_scans hlt hup hdown).2 _ (by omega) hswap

/-- The array `a` after some rounds on the segment behind `pre`, whose last cell holds the
pivot: the cells up to `low` and from `high` on are on their sides. -/
structure Closing (a pre : List Int) (key : Int) (post : List Int) (s : Scan) : Prop where
  untangled : Untangled a s.a
  cells : ∃ low mid high, s.a = pre ++ low ++ mid ++ (high ++ key :: post) ∧
    s.low = (pre ++ low).length ∧ s.high = (pre ++ low ++ mid).length ∧
    (∀ x ∈ low, x ≤ key) ∧ (∀ x ∈ high, key ≤ x) ∧ ∀ t ts, high = t :: ts → key < t

/-- The cells are still on their sides when some more of them are. -/
theorem sides_more {key : Int} {low lows highs high : List Int} (hlow : ∀ x ∈ low, x ≤ key)
    (hhigh : ∀ x ∈ high, key ≤ x) (hlows : ∀ x ∈ lows, x ≤ key) {t : Int} (ht : key < t)
    (hhighs : ∀ x ∈ highs, key ≤ x) :
    (∀ x ∈ low ++ lows, x ≤ key) ∧ (∀ x ∈ t :: highs ++ high, key ≤ x) ∧
      ∀ u us, t :: highs ++ high = u :: us → key < u := by
  refine ⟨List.forall_mem_append.mpr ⟨hlow, hlows⟩, List.forall_mem_append.mpr
    ⟨List.forall_mem_cons.mpr ⟨Int.le_of_lt ht, hhighs⟩, hhigh⟩, ?_⟩
  intro u us he
  cases he
  exact ht

theorem Closing.step {a pre post : List Int} {key : Int} {s : Scan}
    (h : Closing a pre key post s) :
    (∃ t, closeIn .plain key s = .ok (.next t) ∧ Closing a pre key post t ∧
      (t.high - t.low).toNat < (s.high - s.low).toNat) ∨
    ∃ t, closeIn .plain key s = .ok (.leave t) ∧ Closing a pre key post t ∧ t.high ≤ t.low := by
  by_cases hlt : s.low < s.high
  · left
    obtain ⟨cells, i, j⟩ := s
    obtain ⟨huntangled, low, mid, high, hcells, hi, hj, hlow, hhigh, hfirst⟩ := h
    simp only at huntangled hcells hi hj hlt
    obtain ⟨r, back, hback, hr⟩ : ∃ r back, high ++ key :: post = r :: back ∧ key ≤ r := by
      cases high with
      | nil => exact ⟨key, post, rfl, Int.le_refl key⟩
      | cons t ts => exact ⟨t, ts ++ key :: post, rfl, Int.le_of_lt (hfirst t ts rfl)⟩
    rw [hback] at hcells
    subst hcells
    rcases closeIn_ok key r (pre ++ low) mid back hr hi hj hlt with ⟨hrun, hsmall⟩ |
      ⟨small, t, rest, rfl, hsmall, ht, ⟨hrun, hrest⟩ | ⟨left, u, right, rfl, hu, hright, hrun⟩⟩
    · refine ⟨_, hrun, ⟨huntangled, low ++ mid, [], high, by simp [hback], by simp [hj],
        by simp [hj], List.forall_mem_append.mpr ⟨hlow, hsmall⟩, hhigh, hfirst⟩, ?_⟩
      simp only
      omega
    · refine ⟨_, hrun, ⟨huntangled, low ++ small, [], t :: rest ++ high, by simp [hback], ?_, ?_,
        sides_more hlow hhigh hsmall ht hrest⟩, ?_⟩
      · simp only [hi, List.length_append]
        omega
      · simp only [hi, List.length_append, List.length_nil]
        omega
      · simp only
        omega
    · refine ⟨_, hrun, ⟨?_, low ++ small, u :: left, t :: right ++ high, by simp [hback], ?_, ?_,
        sides_more hlow hhigh hsmall ht hright⟩, ?_⟩
      · have hcells : pre ++ low ++ (small ++ t :: (left ++ u :: right)) ++ r :: back =
            pre ++ low ++ small ++ t :: left ++ u :: (right ++ r :: back) := by simp
        rw [hcells] at huntangled
        exact huntangled.exchange (by omega)
      · simp only [hi, List.length_append]
        omega
      · simp only [hi, List.length_append, List.length_cons]
        omega
      · simp only [List.length_append, List.length_cons] at hi hj ⊢
        omega
  · exact Or.inr ⟨s, if_neg hlt, h, by omega⟩

/-- The outer loop ends where the two indices meet. -/
theorem closeIn_loop (pre init post : List Int) (key : Int) {fuel : Nat} {start stop : Int}
    (hstart : start = pre.length) (hstop : stop = (pre ++ init).length)
    (enough : init.length < fuel) :
    ∃ low high, whileLoop (closeIn .plain key) fuel ⟨pre ++ init ++ key :: post, start, stop⟩ =
        .ok ⟨pre ++ low ++ (high ++ key :: post), (pre ++ low).length, (pre ++ low).length⟩ ∧
      Untangled (pre ++ init ++ key :: post) (pre ++ low ++ (high ++ key :: post)) ∧
      (∀ x ∈ low, x ≤ key) ∧ (∀ x ∈ high, key ≤ x) ∧ ∀ t ts, high = t :: ts → key < t := by
  have hclosing : Closing (pre ++ init ++ key :: post) pre key post
      ⟨pre ++ init ++ key :: post, start, stop⟩ :=
    ⟨.refl, [], init, [], by simp, by simp [hstart], by simp [hstop], by simp, by simp, by simp⟩
  have hloop : ∃ t, whileLoop (closeIn .plain key) fuel ⟨pre ++ init ++ key :: post, start, stop⟩ =
      .ok t ∧ Closing (pre ++ init ++ key :: post) pre key post t ∧ t.high ≤ t.low :=
    whileLoop_ok _ _ (fun s => (s.high - s.low).toNat) (fun s hs => hs.step) hclosing (by
      simp only [hstart, hstop, List.length_append]
      omega)
  obtain ⟨⟨cells, i, j⟩, ht, hclosed, hend⟩ := hloop
  obtain ⟨huntangled, low, mid, high, hcells, hi, hj, hlow, hhigh, hfirst⟩ := hclosed
  simp only at huntangled hcells hi hj hend
  obtain rfl : mid = [] := by
    rw [List.length_append] at hj
    exact List.length_eq_zero_iff.mp (by omega)
  rw [List.append_nil] at hcells hj
  subst hcells hi hj
  exact ⟨low, high, ht, huntangled, hlow, hhigh, hfirst⟩

/-- `PartSort` takes the segment behind `pre` apart around its last element, by exchanges
of cells out of order. The place of the pivot is the end of the segment or was not settled
before. -/
theorem partSort_ok (pre init post : List Int) (key : Int) {fuel : Nat} {start stop : Int}
    (hstart : start = pre.length) (hstop : stop = (pre ++ init).length)
    (enough : init.length < fuel) :
    ∃ low high, partSort fuel (pre ++ (init ++ [key]) ++ post) start stop =
        .ok (pre ++ low ++ key :: (high ++ post), (pre ++ low).length) ∧
      Parted (init ++ [key]) low key high ∧
      Untangled (pre ++ (init ++ [key]) ++ post) (pre ++ low ++ key :: (high ++ post)) ∧
      (((pre ++ low).length : Int) = stop ∨
        ¬ Settled (pre ++ (init ++ [key]) ++ post) (pre ++ low).length) := by
  have hshape : pre ++ (init ++ [key]) ++ post = pre ++ init ++ key :: post := by simp
  rw [hshape]
  have hread : read (pre ++ init ++ key :: post) stop = .ok key := read_mid hstop
  obtain ⟨low, high, ht, huntangled, hlow, hhigh, hfirst⟩ :=
    closeIn_loop pre init post key hstart hstop enough
  have hperm : (low ++ (high ++ [key])).Perm (init ++ [key]) := by
    have h : (pre ++ (low ++ (high ++ [key]) ++ post)).Perm (pre ++ (init ++ [key] ++ post)) := by
      simpa using huntangled.perm
    exact (List.perm_append_right_iff post).mp ((List.perm_append_left_iff pre).mp h)
  have hlen := hperm.length_eq
  simp only [List.length_append, List.length_singleton] at hlen
  rw [List.length_append] at hstop
  cases high with
  | nil =>
    rw [List.length_nil] at hlen
    have hplace : stop = (pre ++ low).length := by
      rw [hstop, List.length_append]
      omega
    have hswap : Access.plain.swap (pre ++ low ++ ([] ++ key :: post)) (pre ++ low).length stop =
        .ok (pre ++ low ++ key :: post) := swap_self rfl hplace
    refine ⟨low, [], ?_, ⟨hperm, hlow, by simp⟩, huntangled, Or.inl hplace.symm⟩
    simp only [partSort, partSortBy, Access.plain_read, hread, ht, hswap, lift_ok, ok_bind,
      pure_eq_ok]
    rfl
  | cons t ts =>
    rw [List.length_cons] at hlen
    have hkt := hfirst t ts rfl
    have hplace : stop = (pre ++ low ++ t :: ts).length := by
      simp only [hstop, List.length_append, List.length_cons]
      omega
    have hcells : pre ++ low ++ (t :: ts ++ key :: post) =
        pre ++ low ++ t :: ts ++ key :: post := by simp
    have hout : pre ++ low ++ key :: (ts ++ [t] ++ post) =
        pre ++ low ++ key :: ts ++ t :: post := by simp
    rw [hcells] at huntangled ht
    obtain ⟨hswap, -⟩ := swap_mid (pre ++ low) ts post t key rfl hplace
    rw [swap] at hswap
    refine ⟨low, ts ++ [t], ?_, .of_last hperm hlow hhigh, ?_, Or.inr ?_⟩
    · simp only [partSort, partSortBy, Access.plain_read, hread, ht, hswap, lift_ok, ok_bind,
        pure_eq_ok, hout]
    · rw [hout]
      exact huntangled.exchange (Int.le_of_lt hkt)
    · intro hsettled
      have hle := (huntangled.settled hsettled).le (Nat.le_refl _) (by simp)
      omega

/-- The last pivot is at its place: no cell in front of it is larger, none behind it
smaller. -/
def Pivoted (nums : List Int) (s : Search) : Prop :=
  ∃ low pivot high, s.list = low ++ pivot :: high ∧ s.div = low.length ∧
    Parted nums low pivot high

/-- What a call of `PartSort` up to place `stop` has brought about: no place is unsettled
that was settled, and one more is settled unless the new pivot was at the end already. -/
structure Advance (s t : Search) (stop : Int) : Prop where
  settled : (unsettled t.list).card ≤ (unsettled s.list).card
  progress : t.div = stop ∨ (unsettled t.list).card < (unsettled s.list).card

theorem advance_of_untangled {nums : List Int} {s t : Search} {stop : Int} {k : Nat}
    (huntangled : Untangled s.list t.list) (ht : Pivoted nums t) (hk : t.div = k)
    (h : (k : Int) = stop ∨ ¬ Settled s.list k) : Advance s t stop := by
  refine ⟨Finset.card_le_card huntangled.unsettled_subset, ?_⟩
  rcases h with h | h
  · exact Or.inl (hk.trans h)
  · obtain ⟨low, pivot, high, hlist, hdiv, hparted⟩ := ht
    obtain rfl : k = low.length := by omega
    have hlt : low.length < s.list.length := by
      rw [← huntangled.perm.length_eq, hlist, List.length_append, List.length_cons]
      omega
    refine Or.inr (huntangled.unsettled_lt hlt h ?_)
    rw [hlist]
    exact hparted.settled

/-- The search goes on in front of the pivot. -/
theorem Pivoted.front {nums : List Int} {s : Search} (h : Pivoted nums s) (hdiv : 0 < s.div)
    {fuel : Nat} (enough : nums.length ≤ fuel) :
    ∃ t : Search, partSort fuel s.list 0 (s.div - 1) = .ok (t.list, t.div) ∧ Pivoted nums t ∧
      Advance s t (s.div - 1) := by
  obtain ⟨list, div⟩ := s
  obtain ⟨low, pivot, high, hlist, hlow, hparted⟩ := h
  simp only at hlist hlow hdiv
  subst hlist
  have hlen := hparted.perm.length_eq
  rcases List.eq_nil_or_concat' low with rfl | ⟨init, key, rfl⟩
  · rw [hlow] at hdiv
    simp at hdiv
  · simp only [List.length_append, List.length_cons, List.length_nil] at hlow hlen
    have hstop : div - 1 = (([] : List Int) ++ init).length := by
      rw [List.nil_append]
      omega
    obtain ⟨low', high', hrun, hparted', huntangled, hend⟩ :=
      partSort_ok [] init (pivot :: high) key Int.natCast_zero.symm hstop
        (show init.length < fuel by omega)
    rw [List.nil_append, List.nil_append] at hrun huntangled hend
    have hpivoted : Pivoted nums ⟨low' ++ key :: (high' ++ pivot :: high), low'.length⟩ :=
      ⟨low', key, high' ++ pivot :: high, rfl, rfl, hparted.front hparted'⟩
    exact ⟨_, hrun, hpivoted, advance_of_untangled huntangled hpivoted rfl hend⟩

/-- The search goes on behind the pivot. -/
theorem Pivoted.back {nums : List Int} {s : Search} (h : Pivoted nums s)
    (hdiv : s.div < nums.length - 1) {fuel : Nat} (enough : nums.length ≤ fuel) :
    ∃ t : Search, partSort fuel s.list (s.div + 1) (nums.length - 1) = .ok (t.list, t.div) ∧
      Pivoted nums t ∧ Advance s t (nums.length - 1) := by
  obtain ⟨list, div⟩ := s
  obtain ⟨low, pivot, high, hlist, hlow, hparted⟩ := h
  simp only at hlist hlow hdiv
  subst hlist
  have hlen := hparted.perm.length_eq
  rcases List.eq_nil_or_concat' high with rfl | ⟨init, key, rfl⟩
  · simp only [List.length_append, List.length_cons, List.length_nil] at hlen
    omega
  · simp only [List.length_append, List.length_cons, List.length_nil] at hlen
    have hstart : div + 1 = (low ++ [pivot]).length := by
      rw [hlow, List.length_append, List.length_singleton]
      omega
    have hstop : (nums.length : Int) - 1 = (low ++ [pivot] ++ init).length := by
      simp only [List.length_append, List.length_singleton]
      omega
    obtain ⟨low', high', hrun, hparted', huntangled, hend⟩ :=
      partSort_ok (low ++ [pivot]) init [] key hstart hstop (show init.length < fuel by omega)
    have hshape : low ++ [pivot] ++ (init ++ [key]) ++ [] =
        low ++ pivot :: (init ++ [key]) := by simp
    have hshape' : low ++ [pivot] ++ low' = low ++ pivot :: low' := by simp
    rw [hshape, hshape', List.append_nil] at hrun huntangled
    rw [hshape, hshape'] at hend
    have hpivoted : Pivoted nums
        ⟨low ++ pivot :: low' ++ key :: high', (low ++ pivot :: low').length⟩ :=
      ⟨_, key, high', rfl, rfl, hparted.back hparted'⟩
    exact ⟨_, hrun, hpivoted, advance_of_untangled huntangled hpivoted rfl hend⟩

/-- Rounds until the next place is settled: from the right end they go down to `mid`, and
in front of `mid` the next one starts at the right end. -/
def descent (n : Nat) (mid : Int) (s : Search) : Nat :=
  if s.div < mid then n else (s.div - mid).toNat

/-- A bound on the rounds that are left. -/
def distance (n : Nat) (mid : Int) (s : Search) : Nat :=
  (unsettled s.list).card * (n + 1) + descent n mid s

theorem Advance.distance_lt {n : Nat} {mid stop : Int} {s t : Search} (h : Advance s t stop)
    (hn : descent n mid t ≤ n) (hstop : t.div = stop → descent n mid t < descent n mid s) :
    distance n mid t < distance n mid s := by
  have hmul := Nat.mul_le_mul_right (n + 1) h.settled
  unfold distance
  rcases h.progress with hdiv | hless
  · have hdescent := hstop hdiv
    omega
  · have hmul := Nat.mul_le_mul_right (n + 1) (Nat.succ_le_of_lt hless)
    rw [Nat.succ_mul] at hmul
    omega

theorem Pivoted.bounds {nums : List Int} {s : Search} (h : Pivoted nums s) :
    0 ≤ s.div ∧ s.div < nums.length := by
  obtain ⟨low, pivot, high, _, hdiv, hparted⟩ := h
  have hlen := hparted.perm.length_eq
  rw [List.length_append, List.length_cons] at hlen
  omega

theorem Pivoted.descent_le {nums : List Int} {mid : Int} (hmid : 0 ≤ mid) {s : Search}
    (h : Pivoted nums s) : descent nums.length mid s ≤ nums.length := by
  have hbounds := h.bounds
  unfold descent
  split <;> omega

theorem Pivoted.step {nums : List Int} {mid : Int} (hmid : 0 ≤ mid) (hmid' : mid < nums.length)
    {fuel : Nat} (enough : nums.length ≤ fuel) {s : Search} (h : Pivoted nums s) :
    (∃ t, narrow fuel 0 (nums.length - 1) mid s = .ok (.next t) ∧ Pivoted nums t ∧
      distance nums.length mid t < distance nums.length mid s) ∨
    ∃ t, narrow fuel 0 (nums.length - 1) mid s = .ok (.leave t) ∧ Pivoted nums t ∧
      t.div = mid := by
  have hbounds := h.bounds
  by_cases hdiv : s.div = mid
  · exact Or.inr ⟨s, if_neg (by simpa using hdiv), h, hdiv⟩
  · left
    by_cases hlt : mid < s.div
    · obtain ⟨t, hrun, ht, hadvance⟩ := h.front (by omega) enough
      refine ⟨t, ?_, ht, hadvance.distance_lt (ht.descent_le hmid) ?_⟩
      · simp only [narrow, ne_eq, hdiv, not_false_eq_true, if_true, hlt, hrun, ok_bind, pure_eq_ok]
      · intro he
        rw [descent, descent, if_neg (by omega), if_neg (by omega)]
        omega
    · obtain ⟨t, hrun, ht, hadvance⟩ := h.back (by omega) enough
      refine ⟨t, ?_, ht, hadvance.distance_lt (ht.descent_le hmid) ?_⟩
      · simp only [narrow, ne_eq, hdiv, not_false_eq_true, if_true, hlt, if_false, hrun, ok_bind,
          pure_eq_ok]
      · intro he
        rw [descent, descent, if_neg (by omega), if_pos (by omega)]
        omega

theorem Pivoted.distance_lt {nums : List Int} {mid : Int} (hmid : 0 ≤ mid) {s : Search}
    (h : Pivoted nums s) :
    distance nums.length mid s < (nums.length + 1) * (nums.length + 1) := by
  have hdescent := h.descent_le hmid
  have hcard : (unsettled s.list).card ≤ nums.length := by
    obtain ⟨low, pivot, high, hlist, _, hparted⟩ := h
    rw [hlist, ← hparted.perm.length_eq]
    exact (Finset.card_filter_le _ _).trans (Finset.card_range _).le
  have hmul := Nat.mul_le_mul_right (nums.length + 1) hcard
  rw [distance, Nat.succ_mul]
  omega

/-- The search ends at the place of the median, and the element there is the one that the
sorted list has there. -/
theorem findMiddleCount_ok {list : List Int} (hlen : 1 ≤ list.length) {fuel : Nat}
    (enough : (list.length + 1) * (list.length + 1) ≤ fuel) :
    ∃ x out, findMiddleCount fuel list list.length = .ok (x, out) ∧ out.Perm list ∧
      (list.mergeSort (fun a b => decide (a ≤ b)))[(list.length - 1) / 2]? = some x := by
  have hfuel : list.length ≤ fuel := by
    have hsquare := Nat.le_mul_self (list.length + 1)
    omega
  obtain ⟨m, hm⟩ : ∃ m : Nat, m = (list.length - 1) / 2 := ⟨_, rfl⟩
  have hmid : ((list.length : Int) - 1).tdiv 2 = m := by
    rw [hm, Int.tdiv_eq_ediv_of_nonneg (by omega)]
    omega
  obtain ⟨init, key, hlist⟩ := (List.eq_nil_or_concat' list).resolve_left
    (List.ne_nil_of_length_pos hlen)
  have hinit : list.length = init.length + 1 := by
    rw [hlist, List.length_append, List.length_singleton]
  obtain ⟨low, high, hrun, hparted, -, -⟩ :=
    partSort_ok [] init [] key Int.natCast_zero.symm (show (list.length : Int) - 1 = _ by
      rw [List.nil_append]; omega) (show init.length < fuel by omega)
  rw [List.nil_append, List.nil_append, List.append_nil, List.append_nil, ← hlist] at hrun
  rw [← hlist] at hparted
  have hfirst : Pivoted list ⟨low ++ key :: high, low.length⟩ := ⟨low, key, high, rfl, rfl, hparted⟩
  have hloop : ∃ t, whileLoop (narrow fuel 0 (list.length - 1) m) fuel
        ⟨low ++ key :: high, low.length⟩ = .ok t ∧ Pivoted list t ∧ t.div = m :=
    whileLoop_ok _ _ (distance list.length m)
      (fun s hs => hs.step (by omega) (by omega) hfuel) hfirst
      (Nat.lt_of_lt_of_le (hfirst.distance_lt (by omega)) enough)
  obtain ⟨t, ht, ⟨low', x, high', hcells, hdiv, hparted'⟩, hend⟩ := hloop
  have hread : read t.list m = .ok x := by
    rw [hcells]
    exact read_mid (by omega)
  refine ⟨x, t.list, ?_, by rw [hcells]; exact hparted'.perm, ?_⟩
  · simp only [findMiddleCount, hrun, hmid, ht, hread, lift_ok, ok_bind, pure_eq_ok]
  · rw [← hm, show m = low'.length by omega]
    exact hparted'.rank

theorem partSort_extends {fuel fuel' : Nat} (h : fuel ≤ fuel') (a : List Int) (start stop : Int) :
    Extends (partSort fuel a start stop) (partSort fuel' a start stop) := by
  refine (Extends.refl _).bind ?_
  intro key
  refine (whileLoop_extends (fun s => Extends.refl _) h _).bind ?_
  intro s
  exact Extends.refl _

theorem narrow_extends {fuel fuel' : Nat} (h : fuel ≤ fuel') (low high mid : Int) (s : Search) :
    Extends (narrow fuel low high mid s) (narrow fuel' low high mid s) := by
  unfold narrow
  split
  · split
    · exact (partSort_extends h _ _ _).bind (fun _ => Extends.refl _)
    · exact (partSort_extends h _ _ _).bind (fun _ => Extends.refl _)
  · exact Extends.refl _

/-- With more fuel the search does the same. -/
theorem findMiddleCount_extends {fuel fuel' : Nat} (h : fuel ≤ fuel') (list : List Int)
    (aLen : Int) : Extends (findMiddleCount fuel list aLen) (findMiddleCount fuel' list aLen) := by
  refine (partSort_extends h _ _ _).bind ?_
  intro s
  refine (whileLoop_extends (fun s => narrow_extends h _ _ _ s) h _).bind ?_
  intro t
  exact Extends.refl _

/-- The search comes to its end with every access inside the array, and returns the
element in the middle of the sorted array. -/
theorem findMiddleCount_median (list : List Int) (hlen : 1 ≤ list.length) :
    ∃ x out, (∀ fuel, (list.length + 1) * (list.length + 1) ≤ fuel →
        findMiddleCount fuel list list.length = .ok (x, out)) ∧
      out.Perm list ∧
      (list.mergeSort (fun a b => decide (a ≤ b)))[(list.length - 1) / 2]? = some x := by
  obtain ⟨x, out, hrun, hperm, hmedian⟩ := findMiddleCount_ok hlen (Nat.le_refl _)
  refine ⟨x, out, ?_, hperm, hmedian⟩
  intro fuel hfuel
  exact findMiddleCount_extends hfuel list list.length _ hrun

theorem findMiddleCount_median_nine :
    ∃ x out, (∀ fuel, 100 ≤ fuel →
        findMiddleCount fuel [12, 3, 10, 8, 6, 7, 11, 13, 9] 9 = .ok (x, out)) ∧
      out.Perm [12, 3, 10, 8, 6, 7, 11, 13, 9] ∧
      (([12, 3, 10, 8, 6, 7, 11, 13, 9] : List Int).mergeSort (fun a b => decide (a ≤ b)))[4]? =
        some x :=
  findMiddleCount_median [12, 3, 10, 8, 6, 7, 11, 13, 9] (by simp)

end BasicDemo.LeetCode.FindMiddleCount
