import BasicDemo.Aspects.Tracker

namespace BasicDemo.Aspects
open Library.Classes

variable {N S I : Type} [DecidableEq N]

/-- A hook of the selector in another class of the line of superclasses and subclasses. -/
def Conflict (t : ClassTable N S I) (H : N → Finset S) (k : N) (s : S) : Prop :=
  ∃ d, d ≠ k ∧ s ∈ H d ∧ (t.Inherits d k ∨ t.Inherits k d)

/-- "A method can only be hooked once per class hierarchy." -/
def Exclusive (t : ClassTable N S I) (H : N → Finset S) : Prop :=
  ∀ c d s, s ∈ H c → s ∈ H d → t.Inherits c d → c = d

/-- What a refusal says: it names the hooked subclasses, or a hooked superclass. -/
def Explains (t : ClassTable N S I) (H : N → Finset S) (k : N) (s : S) :
    HierarchyError N S → Prop
  | .hookedSubclasses selectorName subclassNames =>
    selectorName = s ∧ subclassNames.Nonempty ∧
      ∀ d, d ∈ subclassNames ↔ d ≠ k ∧ s ∈ H d ∧ t.Inherits d k
  | .hookedIn selectorName className =>
    selectorName = s ∧ className ≠ k ∧ s ∈ H className ∧ t.Inherits k className

/-- The trackers hold the hooks `H`, and for each class the direct subclasses that have a
hook at or below them. -/
structure Trackers.Records (t : ClassTable N S I) (T : Trackers N S) (H : N → Finset S) : Prop where
  owned : T.Owned
  current : T.Current
  names : ∀ c, T.names c = H c
  subclasses : ∀ c s x, x ∈ T.subclasses c s ↔
    t.superclass x = some c ∧ ∃ d, t.Inherits d x ∧ s ∈ H d

namespace Trackers.Records

theorem empty (t : ClassTable N S I) (heap : Nat → Tracker N S) (created : Nat) :
    Records t ⟨heap, created, fun _ => none⟩ (fun _ => ∅) where
  owned := by
    intro c i hc
    cases hc
  current := by
    intro c i s sub hc
    cases hc
  names := fun _ => rfl
  subclasses := by
    intro c s x
    simp [Trackers.subclasses]

theorem hooked_below {t : ClassTable N S I} {T : Trackers N S} {H : N → Finset S}
    (h : Records t T H) (c : N) (s : S) :
    T.subclassHasHooked c s = true ↔ ∃ d, d ≠ c ∧ s ∈ H d ∧ t.Inherits d c := by
  rw [subclassHasHooked_iff]
  constructor
  · rintro ⟨x, hx⟩
    obtain ⟨hsuper, d, hd, hmem⟩ := (h.subclasses c s x).mp hx
    obtain ⟨hin, hne⟩ := ClassTable.inherits_below.mpr ⟨x, hsuper, hd⟩
    exact ⟨d, hne, hmem, hin⟩
  · rintro ⟨d, hne, hmem, hin⟩
    obtain ⟨x, hsuper, hd⟩ := ClassTable.inherits_below.mp ⟨hin, hne⟩
    exact ⟨x, (h.subclasses c s x).mpr ⟨hsuper, d, hd, hmem⟩⟩

theorem not_hooked_below {t : ClassTable N S I} {T : Trackers N S} {H : N → Finset S} {k : N}
    {s : S} (h : Records t T H) (hno : ¬ Conflict t H k s) :
    T.subclassHasHooked k s = false := by
  rw [← Bool.not_eq_true, h.hooked_below]
  rintro ⟨d, hne, hmem, hin⟩
  exact hno ⟨d, hne, hmem, Or.inl hin⟩

end Trackers.Records

variable [DecidableEq S]

open Classical in
/-- What tracking is for: the hooked selectors of each class, and a request that conflicts
with none of them. -/
noncomputable def hook (t : ClassTable N S I) (H : N → Finset S) (request : N × S) :
    N → Finset S :=
  if Conflict t H request.1 request.2 then H
  else Function.update H request.1 (insert request.2 (H request.1))

theorem mem_update_insert (H : N → Finset S) (k : N) (s : S)
    (d : N) (s' : S) :
    s' ∈ Function.update H k (insert s (H k)) d ↔ s' ∈ H d ∨ (s' = s ∧ d = k) := by
  rw [Function.update_apply]
  by_cases hd : d = k
  · simp [hd, or_comm]
  · simp [hd]

theorem Exclusive.hook {t : ClassTable N S I} {H : N → Finset S} (h : Exclusive t H)
    (request : N × S) : Exclusive t (hook t H request) := by
  rw [Aspects.hook]
  split
  · exact h
  · next hno =>
    intro c d s hc hd hin
    rw [mem_update_insert] at hc hd
    -- Two hooks that differ are an old one and the new one, which would be in conflict.
    by_contra hne
    rcases hc with hc | ⟨rfl, rfl⟩ <;> rcases hd with hd | ⟨hs, rfl⟩
    · exact hne (h c d s hc hd hin)
    · exact hno ⟨c, hne, hs ▸ hc, Or.inl hin⟩
    · exact hno ⟨d, Ne.symm hne, hd, Or.inr hin⟩
    · exact hne rfl

namespace Trackers

/-- The trackers after a request, which may have been refused. -/
def request (t : ClassTable N S I) (T : Trackers N S) (request : N × S) : Trackers N S :=
  match T.allowedAndTrack t request.1 request.2 with
  | .ok T' => T'
  | .error _ => T

section records

variable {t : ClassTable N S I} {T : Trackers N S} {H : N → Finset S}

theorem Records.mark (h : Records t T H) (k : N) (s : S) :
    Records t (mark s (t.chain k) none T) (Function.update H k (insert s (H k))) := by
  obtain ⟨howned, hnames, hcurrent⟩ := mark_none_spec t h.owned s k
  obtain ⟨hcur, hsubs⟩ := hcurrent h.current
  refine ⟨howned, hcur, ?_, ?_⟩
  · intro c
    rw [hnames c, h.names, h.names, Function.update_apply]
  · intro c s' x
    rw [hsubs, h.subclasses]
    -- The new hook is below exactly the classes that the loop has marked.
    simp only [mem_update_insert]
    constructor
    · rintro (⟨hx, d, hd, hmem⟩ | ⟨hs, hx, hk⟩)
      · exact ⟨hx, d, hd, Or.inl hmem⟩
      · exact ⟨hx, k, hk, Or.inr ⟨hs, rfl⟩⟩
    · rintro ⟨hx, d, hd, hmem | ⟨hs, rfl⟩⟩
      · exact Or.inl ⟨hx, d, hd, hmem⟩
      · exact Or.inr ⟨hs, hx, hd⟩

/-- One level of `subclassTrackersHookingSelectorName:`, by classes. -/
theorem mem_subclassNames_succ (hcur : T.Current) (c : N) (s : S)
    (depth : Nat) (e : N) :
    e ∈ T.subclassNames c s (depth + 1) ↔
      ∃ x ∈ T.subclasses c s, (e = x ∧ s ∈ T.names x) ∨ e ∈ T.subclassNames x s depth := by
  rw [subclassNames, Trackers.subclasses]
  cases hc : T.swizzledClassesDict c with
  | none => simp
  | some tracker =>
    have hview : ∀ sub ∈ (T.heap tracker).subclassTrackers s,
        T.names (T.heap sub).trackedClass = (T.heap sub).selectorNames ∧
        T.subclassNames (T.heap sub).trackedClass s depth =
          (T.subclassTrackersHooking s depth sub).image (fun i => (T.heap i).trackedClass) := by
      intro sub hsub
      have hin := hcur c tracker s sub hc hsub
      exact ⟨names_of hin, by rw [subclassNames, hin]⟩
    simp only [subclassTrackersHooking, Finset.mem_image, Finset.mem_biUnion, Finset.mem_union]
    constructor
    · rintro ⟨i, ⟨sub, hsub, hi⟩, rfl⟩
      refine ⟨_, ⟨sub, hsub, rfl⟩, ?_⟩
      rw [(hview sub hsub).1, (hview sub hsub).2]
      rcases hi with hi | hi
      · split at hi
        · next hs =>
          rw [Finset.mem_singleton.mp hi]
          exact Or.inl ⟨rfl, hs⟩
        · cases hi
      · exact Or.inr (Finset.mem_image_of_mem _ hi)
    · rintro ⟨x, ⟨sub, hsub, rfl⟩, hx⟩
      rw [(hview sub hsub).1, (hview sub hsub).2] at hx
      rcases hx with ⟨rfl, hs⟩ | hx
      · refine ⟨sub, ⟨sub, hsub, Or.inl ?_⟩, rfl⟩
        rw [if_pos hs]
        exact Finset.mem_singleton_self sub
      · obtain ⟨i, hi, rfl⟩ := Finset.mem_image.mp hx
        exact ⟨i, ⟨sub, hsub, Or.inr hi⟩, rfl⟩

/-- The error names all hooked subclasses and no other class; the depth of the search is that
of the hierarchy. -/
theorem Records.mem_subclassNames (h : Records t T H) (s : S) (e : N) (depth : Nat) (c : N)
    (hdepth : t.names.idxOf c ≤ depth) :
    e ∈ T.subclassNames c s depth ↔ e ≠ c ∧ s ∈ H e ∧ t.Inherits e c := by
  induction depth generalizing c with
  | zero =>
    have hnone : e ∉ T.subclassNames c s 0 := by
      rw [subclassNames]
      split
      · simp [subclassTrackersHooking]
      · simp
    refine iff_of_false hnone ?_
    rintro ⟨hne, -, hin⟩
    obtain ⟨x, hx, -⟩ := ClassTable.inherits_below.mp ⟨hin, hne⟩
    have := ClassTable.superclass_index_lt hx
    omega
  | succ depth ih =>
    rw [mem_subclassNames_succ h.current]
    constructor
    · rintro ⟨x, hx, he⟩
      obtain ⟨hsuper, -⟩ := (h.subclasses c s x).mp hx
      have hlt := ClassTable.superclass_index_lt hsuper
      have hex : s ∈ H e ∧ t.Inherits e x := by
        rcases he with ⟨rfl, hs⟩ | he
        · exact ⟨h.names e ▸ hs, .refl e⟩
        · exact ((ih x (by omega)).mp he).2
      obtain ⟨hin, hne⟩ := ClassTable.inherits_below.mpr ⟨x, hsuper, hex.2⟩
      exact ⟨hne, hex.1, hin⟩
    · rintro ⟨hne, hs, hin⟩
      obtain ⟨x, hsuper, hex⟩ := ClassTable.inherits_below.mp ⟨hin, hne⟩
      have hlt := ClassTable.superclass_index_lt hsuper
      refine ⟨x, (h.subclasses c s x).mpr ⟨hsuper, e, hex, hs⟩, ?_⟩
      by_cases hx : e = x
      · exact Or.inl ⟨hx, by rwa [← hx, h.names]⟩
      · exact Or.inr ((ih x (by omega)).mpr ⟨hx, hs, hex⟩)

end records

/-- The search stops at the first class that has hooked the selector. -/
theorem search_eq (T : Trackers N S) (k : N) (s : S) (l : List N) :
    T.search k s l = (l.find? (fun c => s ∈ T.names c)).map (fun c =>
      if k = c then .ok () else .error (.hookedIn s c)) := by
  induction l with
  | nil => rfl
  | cons c l ih =>
    rw [search]
    by_cases hs : s ∈ T.names c
    · rw [if_pos hs, List.find?_cons_of_pos (by simpa using hs), Option.map_some, apply_ite some]
    · rw [if_neg hs, List.find?_cons_of_neg (by simpa using hs), ih]

section requests

variable {t : ClassTable N S I} {T : Trackers N S} {H : N → Finset S} {k : N} {s : S}

theorem allowedAndTrack_below (h : T.subclassHasHooked k s = true) :
    T.allowedAndTrack t k s =
      .error (.hookedSubclasses s (T.subclassNames k s t.names.length)) := by
  rw [allowedAndTrack, if_pos h]

theorem allowedAndTrack_search (h : T.subclassHasHooked k s = false) :
    T.allowedAndTrack t k s =
      match (t.chain k).find? (fun c => s ∈ T.names c) with
      | some c => if k = c then .ok T else .error (.hookedIn s c)
      | none => .ok (mark s (t.chain k) none T) := by
  rw [allowedAndTrack, if_neg (by simp [h]), search_eq]
  cases (t.chain k).find? (fun c => s ∈ T.names c) with
  | none => rfl
  | some c =>
    rw [Option.map_some]
    by_cases hk : k = c
    · simp [hk, Except.map]
    · simp [hk, Except.map]

/-- Whether a request is allowed depends only on the superclasses of its class. -/
theorem allowedAndTrack_congr {t' : ClassTable N S I} (h : t.chain k = t'.chain k)
    {T' : Trackers N S} :
    T.allowedAndTrack t k s = .ok T' ↔ T.allowedAndTrack t' k s = .ok T' := by
  cases hbelow : T.subclassHasHooked k s with
  | true =>
    rw [allowedAndTrack_below hbelow, allowedAndTrack_below hbelow]
    simp
  | false => rw [allowedAndTrack_search hbelow, allowedAndTrack_search hbelow, h]

theorem Records.allowed (h : Records t T H) (hno : ¬ Conflict t H k s) :
    ∃ T', T.allowedAndTrack t k s = .ok T' ∧
      Records t T' (Function.update H k (insert s (H k))) := by
  have hbelow := h.not_hooked_below hno
  by_cases hs : s ∈ H k
  · -- Already modified and topmost.
    refine ⟨T, ?_, ?_⟩
    · have hk : s ∈ T.names k := h.names k ▸ hs
      rw [allowedAndTrack_search hbelow, ClassTable.chain_eq,
        List.find?_cons_of_pos (by simpa using hk)]
      exact if_pos rfl
    · rwa [Finset.insert_eq_of_mem hs, Function.update_eq_self]
  · refine ⟨_, ?_, h.mark k s⟩
    have hnone : (t.chain k).find? (fun c => s ∈ T.names c) = none := by
      rw [List.find?_eq_none]
      intro c hc hsc
      have hsc : s ∈ H c := h.names c ▸ of_decide_eq_true hsc
      refine hno ⟨c, ?_, hsc, Or.inr (ClassTable.mem_chain.mp hc)⟩
      rintro rfl
      exact hs hsc
    rw [allowedAndTrack_search hbelow, hnone]

theorem Records.refused (h : Records t T H) (hex : Exclusive t H) (hconf : Conflict t H k s) :
    ∃ e, T.allowedAndTrack t k s = .error e ∧ Explains t H k s e := by
  cases hbelow : T.subclassHasHooked k s with
  | true =>
    have hnames := fun d => h.mem_subclassNames s d _ k (List.idxOf_le_length (l := t.names))
    refine ⟨_, allowedAndTrack_below hbelow, rfl, ?_, hnames⟩
    obtain ⟨d, hd⟩ := (h.hooked_below k s).mp hbelow
    exact ⟨d, (hnames d).mpr hd⟩
  | false =>
    obtain ⟨a, hne, hmem, hin | hin⟩ := hconf
    · have : T.subclassHasHooked k s = true := (h.hooked_below k s).mpr ⟨a, hne, hmem, hin⟩
      rw [hbelow] at this
      cases this
    · have hk : s ∉ H k := fun hs => hne (hex k a s hs hmem hin).symm
      cases hfind : (t.chain k).find? (fun c => s ∈ T.names c) with
      | none =>
        have := List.find?_eq_none.mp hfind a (ClassTable.mem_chain.mpr hin)
        simp [h.names, hmem] at this
      | some c =>
        have hsc : s ∈ H c := by simpa [h.names] using List.find?_some hfind
        have hck : c ≠ k := by
          rintro rfl
          exact hk hsc
        refine ⟨.hookedIn s c, ?_, rfl, hck, hsc,
          ClassTable.mem_chain.mp (List.mem_of_find?_eq_some hfind)⟩
        rw [allowedAndTrack_search hbelow, hfind]
        exact if_neg (Ne.symm hck)

theorem Records.not_conflict (h : Records t T H) (hex : Exclusive t H) {T' : Trackers N S}
    (hok : T.allowedAndTrack t k s = .ok T') : ¬ Conflict t H k s := by
  intro hconf
  obtain ⟨e, he, -⟩ := h.refused hex hconf
  rw [hok] at he
  cases he

theorem Records.request (h : Records t T H) (hex : Exclusive t H) (r : N × S) :
    Records t (T.request t r) (hook t H r) := by
  rw [Trackers.request, hook]
  by_cases hconf : Conflict t H r.1 r.2
  · obtain ⟨e, he, -⟩ := h.refused hex hconf
    rw [he, if_pos hconf]
    exact h
  · obtain ⟨T', hT', hrecords⟩ := h.allowed hconf
    rw [hT', if_neg hconf]
    exact hrecords

theorem records_requests (h : Records t T H) (hex : Exclusive t H) (requests : List (N × S)) :
    Records t (requests.foldl (Trackers.request t) T) (requests.foldl (hook t) H) ∧
    Exclusive t (requests.foldl (hook t) H) := by
  induction requests generalizing T H with
  | nil => exact ⟨h, hex⟩
  | cons r requests ih => exact ih (h.request hex r) (hex.hook r)

end requests

/-- The dictionary of a program that has hooked nothing. -/
def noneTracked (heap : Nat → Tracker N S) : Trackers N S := ⟨heap, 0, fun _ => none⟩

theorem records_from_start (t : ClassTable N S I) (heap : Nat → Tracker N S)
    (requests : List (N × S)) :
    Records t (requests.foldl (Trackers.request t) (noneTracked heap))
      (requests.foldl (hook t) (fun _ => ∅)) ∧
    Exclusive t (requests.foldl (hook t) (fun _ => ∅)) := by
  refine records_requests (Records.empty t heap 0) ?_ requests
  intro c d s hc
  cases hc

/-- As long as nothing is deregistered, the trackers are the plain registry of hooks: each
selector is hooked once in a line of classes, a request is refused exactly if it is in
conflict with a hook, and the refusal names the hooks that it is in conflict with. -/
theorem hooked_once_per_hierarchy (t : ClassTable N S I) (heap : Nat → Tracker N S)
    (requests : List (N × S)) :
    let T := requests.foldl (Trackers.request t) (noneTracked heap)
    let H := requests.foldl (hook t) (fun _ => ∅)
    (∀ c, T.names c = H c) ∧ Exclusive t H ∧
    ∀ k s, (¬ Conflict t H k s ∧ ∃ T', T.allowedAndTrack t k s = .ok T') ∨
      (Conflict t H k s ∧ ∃ e, T.allowedAndTrack t k s = .error e ∧ Explains t H k s e) := by
  obtain ⟨h, hex⟩ := records_from_start t heap requests
  refine ⟨h.names, hex, ?_⟩
  intro k s
  by_cases hconf : Conflict t (requests.foldl (hook t) (fun _ => ∅)) k s
  · exact Or.inr ⟨hconf, h.refused hex hconf⟩
  · obtain ⟨T', hT', -⟩ := h.allowed hconf
    exact Or.inl ⟨hconf, T', hT'⟩

/-- Deregistering one hook forgets the trackers of its superclasses, those of hooks elsewhere
below them included. A superclass that was refused because of two subclasses is accepted
when one of them has been deregistered, and is then hooked together with the other. -/
theorem deregistered_sibling_hides (t : ClassTable N S I) (heap : Nat → Tracker N S)
    (requests : List (N × S)) {a b c : N} {s : S}
    (hb : s ∈ (requests.foldl (Trackers.request t) (noneTracked heap)).names b)
    (hc : s ∈ (requests.foldl (Trackers.request t) (noneTracked heap)).names c)
    (ha : (requests.foldl (Trackers.request t) (noneTracked heap)).names a = ∅)
    (hne : b ≠ c) (hba : t.Inherits b a) (hca : t.Inherits c a) :
    let T := requests.foldl (Trackers.request t) (noneTracked heap)
    (∃ names, T.allowedAndTrack t a s = .error (.hookedSubclasses s names) ∧ c ∈ names) ∧
    ∃ T', (T.deregisterTrackedSelector t b s).allowedAndTrack t a s = .ok T' ∧
      s ∈ T'.names a ∧ s ∈ T'.names c := by
  obtain ⟨h, hex⟩ := records_from_start t heap requests
  intro T
  have hab : a ≠ b := by
    rintro rfl
    rw [ha] at hb
    cases hb
  have hac : c ≠ a := by
    rintro rfl
    rw [ha] at hc
    cases hc
  rw [h.names] at hb hc
  -- The superclasses of `b` have not hooked the selector, and `c` is none of them.
  have habove : ∀ d, t.Inherits b d → d ≠ b → s ∉ T.names d := by
    intro d hd hdb hs
    rw [h.names] at hs
    exact hdb (hex b d s hb hs hd).symm
  have howned : (T.deregisterTrackedSelector t b s).Owned := unmark_owned h.owned s _ none
  have hforgot : (T.deregisterTrackedSelector t b s).swizzledClassesDict a = none :=
    unmark_forgets h.owned _ _ _ a ha (Or.inl (ClassTable.mem_chain.mpr hba))
  obtain ⟨-, hmarked, -⟩ := mark_none_spec t howned s a
  constructor
  · have hbelow := (h.hooked_below a s).mpr ⟨c, hac, hc, hca⟩
    refine ⟨_, allowedAndTrack_below hbelow, ?_⟩
    exact (h.mem_subclassNames s c _ a List.idxOf_le_length).mpr ⟨hac, hc, hca⟩
  · refine ⟨mark s (t.chain a) none (T.deregisterTrackedSelector t b s), ?_, ?_, ?_⟩
    · have hbelow : (T.deregisterTrackedSelector t b s).subclassHasHooked a s = false := by
        rw [subclassHasHooked, hforgot]
      rw [allowedAndTrack_search hbelow, List.find?_eq_none.mpr]
      intro d hd hs
      have had := ClassTable.mem_chain.mp hd
      refine habove d (hba.trans had) ?_ ((unmark_names h.owned s _ none d).1 (of_decide_eq_true hs))
      rintro rfl
      exact hab (had.antisymm hba)
    · rw [hmarked a, if_pos rfl]
      exact Finset.mem_insert_self ..
    · have hcb : c ∉ t.chain b := by
        intro hmem
        exact hne (hex b c s hb hc (ClassTable.mem_chain.mp hmem))
      rw [hmarked c, if_neg hac, deregisterTrackedSelector,
        (unmark_names h.owned s _ none c).2 hcb, h.names]
      exact hc

/-- Two subclasses of one class. -/
def siblings : ClassTable Nat Nat Unit where
  classes := [⟨2, some 0, ∅⟩, ⟨1, some 0, ∅⟩, ⟨0, none, ∅⟩]
  hierarchy := by
    refine .cons (by decide) ?_ (.cons (by decide) ?_ (.cons (by decide) (by simp) .nil))
    · simp
    · simp

theorem deregistered_sibling_hides_hook :
    ∃ T', ((([(1, 7), (2, 7)].foldl (Trackers.request siblings)
        (noneTracked (fun _ => ⟨0, ∅, fun _ => ∅⟩))).deregisterTrackedSelector siblings 1 7
        ).allowedAndTrack siblings 0 7) = .ok T' ∧ 7 ∈ T'.names 0 ∧ 7 ∈ T'.names 2 :=
  (deregistered_sibling_hides siblings _ [(1, 7), (2, 7)] (by decide) (by decide) (by decide)
    (by decide) (.step rfl (.refl 0)) (.step rfl (.refl 0))).2

end Trackers

end BasicDemo.Aspects
