import BasicDemo.Observing.Swizzling

namespace BasicDemo.Observing
open Library.Classes Library.Runs

variable {Data Value : Type}

/-- Sending the setter of `k` returns; the blocks of the registrations for `k` are
scheduled once each and in list order, with `k`, the value held before and the new
one; and no block of a registration whose setter is another selector is scheduled. -/
def Delivers (F : Foundation Data Value) (s : State Data Value) (x : ObjectID)
    (k : NSString) (newValue : Value) : Prop :=
  ∃ sel oldValue t calls,
    setterForGetter F.letters k = some sel ∧
    F.valueForKey (s.objects x).data k = some oldValue ∧
    sendSetter F s x sel newValue = (t, none) ∧
    t.scheduled = s.scheduled ++ calls ∧
    calls.filter (fun c => c.info.key = k) =
      ((s.infos x).filter (fun i => i.key = k)).map
        (fun i => ⟨i, x, k, oldValue, newValue⟩) ∧
    ∀ c ∈ calls, setterForGetter F.letters c.info.key = some sel

/-- The key can be read with `valueForKey:`. -/
def Readable (F : Foundation Data Value) (s : State Data Value) (x : ObjectID)
    (k : NSString) : Prop :=
  (F.valueForKey (s.objects x).data k).isSome

/-- The setter that the class has for the key is of the type that `kvo_setter` has. -/
def TakesObject (P : Program) (F : Foundation Data Value) (x : ObjectID) (k : NSString) : Prop :=
  ∃ sel i, setterForGetter F.letters k = some sel ∧
    P.table.resolve (P.classOf x) sel = some ⟨.original i, some kvoSetterType⟩

/-- The setter that the class has for the key takes the value without raising. -/
def Accepts (P : Program) (F : Foundation Data Value) (s : State Data Value) (x : ObjectID)
    (k : NSString) (newValue : Value) : Prop :=
  ∀ sel i types, setterForGetter F.letters k = some sel →
    P.table.resolve (P.classOf x) sel = some ⟨.original i, types⟩ →
    (F.setter i (s.objects x).data newValue).2 = none

/-- What delivery depends on: the key's first letter survives the way through the setter
name, the key is readable, and the class's own setter is one for objects that takes the
value. -/
structure Deliverable (P : Program) (F : Foundation Data Value) (s : State Data Value)
    (x : ObjectID) (k : NSString) (newValue : Value) : Prop where
  stable : Stable F.letters k
  readable : Readable F s x k
  object : TakesObject P F x k
  accepts : Accepts P F s x k newValue

/-- The setter of an accepted key is dispatched to `kvo_setter` if it takes an object, and
is undefined otherwise; the message to `super` finds the setter of the original class. -/
theorem Invariant.dispatch {P : Program} {F : Foundation Data Value} {w : World Data Value}
    (h : Invariant P F w) {r : Registration} (hr : r ∈ w.accepted) (v : Value) :
    ∃ sel i types, setterForGetter F.letters r.key = some sel ∧
      P.table.resolve (P.classOf r.object) sel = some ⟨.original i, types⟩ ∧
      sendSetter F w.state r.object sel v =
        (if types = some kvoSetterType then kvoSetter F w.state r.object sel v
          else (w.state, some .undefined)) ∧
      msgSendSuper F w.state r.object sel v =
        passObject F (w.state.objects r.object).data sel v (some ⟨.original i, types⟩) := by
  obtain ⟨hx, sel, i, types, hsel, hown, horig⟩ := h.setters r hr
  obtain ⟨c, hc, he, hl⟩ := ClassTable.own_eq_some.mp hown
  have hne : w.state.isa r.object ≠ P.classOf r.object := by
    intro hsame
    have hplain := P.classOf_plain r.object
    rw [← hsame, hx, isKvoName_append] at hplain
    cases hplain
  refine ⟨sel, i, types, hsel, horig, ?_, ?_⟩
  · unfold sendSetter
    rw [← he, ClassTable.resolve_of_mem hc hl]
  · rw [h.swizzled.msgSendSuper hne, horig]

/-- What the call does once the getter's name is known. -/
theorem kvoSetter_returns {F : Foundation Data Value} {s : State Data Value} {x : ObjectID}
    {sel : Selector} {g : NSString} {v oldValue : Value} {data : Data}
    (hg : getterForSetter F.letters sel = .ok (some g))
    (hv : F.valueForKey (s.objects x).data g = some oldValue)
    (hs : msgSendSuper F s x sel v = (data, none)) :
    kvoSetter F s x sel v =
      ({ s.modify x (fun o => { o with data := data }) with
          scheduled := s.scheduled ++ notifications s x g oldValue v }, none) := by
  have hinfos := modify_infos s x (f := fun o => { o with data := data }) (fun _ => rfl) x
  simp only [kvoSetter, hg, hv, hs, notifications, hinfos, modify_scheduled]

/-- A call that returns has read the old value under the getter's name, and its message
to `super` has returned. -/
theorem kvoSetter_returned {F : Foundation Data Value} {s t : State Data Value} {x : ObjectID}
    {sel : Selector} {g : NSString} {v : Value}
    (hg : getterForSetter F.letters sel = .ok (some g))
    (hr : kvoSetter F s x sel v = (t, none)) :
    (∃ oldValue, F.valueForKey (s.objects x).data g = some oldValue) ∧
      ∃ data, msgSendSuper F s x sel v = (data, none) := by
  cases hv : F.valueForKey (s.objects x).data g with
  | none => simp [kvoSetter, hg, hv] at hr
  | some oldValue =>
    refine ⟨⟨oldValue, rfl⟩, ?_⟩
    cases hs : msgSendSuper F s x sel v with
    | mk data failure =>
      cases failure with
      | none => exact ⟨data, rfl⟩
      | some e => simp [kvoSetter, hg, hv, hs] at hr

theorem notifications_filter (s : State Data Value) (x : ObjectID) (k : NSString)
    (oldValue newValue : Value) :
    (notifications s x k oldValue newValue).filter (fun c => c.info.key = k) =
      notifications s x k oldValue newValue := by
  apply List.filter_eq_self.mpr
  intro c hc
  obtain ⟨i, hi, rfl⟩ := List.mem_map.mp hc
  exact (List.mem_filter.mp hi).2

theorem passObject_object (F : Foundation Data Value) (data : Data) (sel : Selector) (v : Value)
    (i : Nat) : passObject F data sel v (some ⟨.original i, some kvoSetterType⟩) =
      ((F.setter i data v).1, (F.setter i data v).2.map .raised) := by
  simp only [passObject, if_true]

theorem Invariant.delivers {P : Program} {F : Foundation Data Value} {w : World Data Value}
    (h : Invariant P F w) {r : Registration} (hr : r ∈ w.accepted) {v : Value}
    (hc : Deliverable P F w.state r.object r.key v) :
    Delivers F w.state r.object r.key v := by
  obtain ⟨sel, i, types, hsel, horig, hsend, hsuper⟩ := h.dispatch hr v
  obtain ⟨oldValue, hold⟩ := Option.isSome_iff_exists.mp hc.readable
  have hg := (getter_of_setter_iff F.letters r.key sel hsel).mpr hc.stable
  have htypes : types = some kvoSetterType := by
    obtain ⟨sel', j, hsel', hj⟩ := hc.object
    cases Option.some.inj (hsel.symm.trans hsel')
    exact (Method.mk.inj (Option.some.inj (horig.symm.trans hj))).2
  rw [htypes, passObject_object, hc.accepts sel i types hsel horig] at hsuper
  rw [if_pos htypes] at hsend
  refine ⟨sel, oldValue, _, notifications w.state r.object r.key oldValue v, hsel, hold,
    hsend.trans (kvoSetter_returns hg hold hsuper), rfl, notifications_filter _ _ _ _ _, ?_⟩
  intro c hc
  obtain ⟨j, hj, rfl⟩ := List.mem_map.mp hc
  have hkey : j.key = r.key := by simpa using (List.mem_filter.mp hj).2
  rw [hkey]
  exact hsel

/-- A setter that returns was one for objects and has taken the value. -/
theorem Invariant.returned_takes {P : Program} {F : Foundation Data Value}
    {w : World Data Value} (h : Invariant P F w) {r : Registration} (hr : r ∈ w.accepted)
    {sel : Selector} {v : Value} {t : State Data Value}
    (hsel : setterForGetter F.letters r.key = some sel)
    (hret : sendSetter F w.state r.object sel v = (t, none)) :
    kvoSetter F w.state r.object sel v = (t, none) ∧ TakesObject P F r.object r.key ∧
      Accepts P F w.state r.object r.key v := by
  obtain ⟨sel', i, types, hsel', horig, hsend, hsuper⟩ := h.dispatch hr v
  cases Option.some.inj (hsel.symm.trans hsel')
  rw [hsend] at hret
  split at hret
  · rename_i htypes
    refine ⟨hret, ⟨sel, i, hsel, htypes ▸ horig⟩, ?_⟩
    obtain ⟨x, o, k⟩ := r
    cases k with
    | nil => cases hsel
    | cons c rest =>
      obtain ⟨_, data, hdata⟩ :=
        kvoSetter_returned (getter_of_setter F.letters c rest sel hsel) hret
      rw [hsuper, htypes, passObject_object] at hdata
      intro sel' j types' hsel' hj
      cases Option.some.inj (hsel.symm.trans hsel')
      cases Option.some.inj (horig.symm.trans hj)
      exact Option.map_eq_none_iff.mp (Prod.mk.inj hdata).2
  · cases hret

/-- A delivered block was registered under the name the setter leads back to. -/
theorem Invariant.delivered {P : Program} {F : Foundation Data Value}
    {w : World Data Value} (h : Invariant P F w) {r : Registration} (hr : r ∈ w.accepted)
    {j : Info} (hj : j ∈ w.state.infos r.object) (hkey : j.key = r.key)
    {v : Value} (hd : Delivers F w.state r.object r.key v) :
    Deliverable P F w.state r.object r.key v := by
  obtain ⟨sel, oldValue, t, calls, hsel, hold, hret, hcalls, hfilter, _⟩ := hd
  obtain ⟨hset, hobject, haccepts⟩ := h.returned_takes hr hsel hret
  refine ⟨?_, by rw [Readable, hold]; rfl, hobject, haccepts⟩
  obtain ⟨x, o, k⟩ := r
  cases k with
  | nil => cases hsel
  | cons c rest =>
    have hg := getter_of_setter F.letters c rest sel hsel
    obtain ⟨⟨read, hread⟩, data, hsuper⟩ := kvoSetter_returned hg hset
    rw [kvoSetter_returns hg hread hsuper] at hset
    have ht := congrArg State.scheduled (Prod.mk.inj hset).1
    have heq : notifications w.state x (recased F.letters c ++ rest) read v = calls :=
      List.append_cancel_left (ht.trans hcalls)
    have hmem : (⟨j, x, c :: rest, oldValue, v⟩ : Call Value) ∈ calls := by
      have hm : (⟨j, x, c :: rest, oldValue, v⟩ : Call Value) ∈
          calls.filter (fun c' => c'.info.key = c :: rest) := by
        rw [hfilter]
        exact List.mem_map.mpr ⟨j, List.mem_filter.mpr ⟨hj, by simp [hkey]⟩, rfl⟩
      exact (List.mem_filter.mp hm).1
    rw [← heq] at hmem
    obtain ⟨i', hi', he⟩ := List.mem_map.mp hmem
    have hname : recased F.letters c ++ rest = c :: rest := (Call.mk.inj he).2.2.1
    rw [hname] at hg
    exact (getter_of_setter_iff F.letters (c :: rest) sel hsel).mp hg

/-- In every state of every run, the setter of an accepted key delivers to all of
its registrations if the key's first letter survives the way through the setter
name, the key is readable, and the class's own setter is one for objects that takes the
value; with a registration present, it delivers only then. -/
theorem kvo_delivery (P : Program) (F : Foundation Data Value) (honest : Honest P F)
    (data : ObjectID → Data) (es : List (Event Value)) :
    Throughout (step F) (fun w => ∀ r ∈ w.accepted, ∀ v,
      (Deliverable P F w.state r.object r.key v → Delivers F w.state r.object r.key v) ∧
      ((∃ i ∈ w.state.infos r.object, i.key = r.key) → Delivers F w.state r.object r.key v →
        Deliverable P F w.state r.object r.key v)) (P.initial data) es := by
  refine (invariant_throughout honest data es).mono ?_
  intro w h r hr v
  refine ⟨fun hc => h.delivers hr hc, ?_⟩
  intro ⟨i, hi, hkey⟩ hd
  exact h.delivered hr hi hkey hd

theorem not_delivers_of_raised {F : Foundation Data Value} {s : State Data Value} {x : ObjectID}
    {k : NSString} {sel : Selector} {v : Value} {e : Exception}
    (hsel : setterForGetter F.letters k = some sel)
    (hraised : (sendSetter F s x sel v).2 = some e) : ¬ Delivers F s x k v := by
  rintro ⟨sel', oldValue, t, calls, hsel', -, hret, -⟩
  cases Option.some.inj (hsel.symm.trans hsel')
  rw [hret] at hraised
  cases hraised

/-- The setter of a model's property delivers to the one registration for it. -/
theorem kvo_delivery_stdName :
    ∃ w, run (step (modelFoundation (text "stdName")))
        ((modelProgram (text "setStdName:")).initial (fun _ => 3)) [.add 0 1 (text "stdName") 7] =
          some w ∧
      w.state.infos 0 = [⟨0, 1, text "stdName", 7⟩] ∧
      Delivers (modelFoundation (text "stdName")) w.state 0 (text "stdName") 5 := by
  have hrun : (run (step (modelFoundation (text "stdName")))
      ((modelProgram (text "setStdName:")).initial (fun _ => 3)) [.add 0 1 (text "stdName") 7]).map
        (fun w => (w.accepted, w.state.infos 0, (w.state.objects 0).data)) =
      some ([⟨0, 1, text "stdName"⟩], [⟨0, 1, text "stdName", 7⟩], 3) := by
    decide +kernel
  obtain ⟨w, hw, he⟩ := Option.map_eq_some_iff.mp hrun
  simp only [Prod.mk.injEq] at he
  obtain ⟨hacc, hinfos, hdata⟩ := he
  have hall := (kvo_delivery (modelProgram (text "setStdName:"))
    (modelFoundation (text "stdName")) (propertyProgram_honest (by decide) _ _) (fun _ => 3)
    [.add 0 1 (text "stdName") 7]).last hw
  have hset : setterForGetter asciiCases (text "stdName") = some (text "setStdName:") := by
    decide
  have hmethod : (modelProgram (text "setStdName:")).table.resolve (text "Model")
      (text "setStdName:") = some ⟨.original 0, some kvoSetterType⟩ := by
    decide +kernel
  refine ⟨w, hw, hinfos, (hall ⟨0, 1, text "stdName"⟩ (by simp [hacc]) 5).1 ⟨?_, ?_, ?_, ?_⟩⟩
  · show recased asciiCases 115 = [115]
    decide
  · simp [Readable, modelFoundation, hdata]
  · exact ⟨text "setStdName:", 0, hset, hmethod⟩
  · intro sel i types _ _
    rfl

/-- The one registration of a run is accepted and stays in the list, and the setter fails. -/
theorem not_delivered_of_run {P : Program} {F : Foundation Data Value} {data : ObjectID → Data}
    {k : NSString} {b : Nat} {v : Value} (sel : Selector) (e : Exception)
    (hsel : setterForGetter F.letters k = some sel)
    (hrun : (run (step F) (P.initial data) [.add 0 1 k b]).map (fun w =>
      (w.accepted, w.state.infos 0, (sendSetter F w.state 0 sel v).2)) =
        some ([⟨0, 1, k⟩], [⟨0, 1, k, b⟩], some e)) :
    ∃ w, run (step F) (P.initial data) [.add 0 1 k b] = some w ∧ ⟨0, 1, k⟩ ∈ w.accepted ∧
      (∃ i ∈ w.state.infos 0, i.key = k) ∧ ¬ Delivers F w.state 0 k v := by
  obtain ⟨w, hw, he⟩ := Option.map_eq_some_iff.mp hrun
  simp only [Prod.mk.injEq] at he
  obtain ⟨hacc, hinfos, hraised⟩ := he
  exact ⟨w, hw, by simp [hacc], by simp [hinfos], not_delivers_of_raised hsel hraised⟩

/-- The setter of `URL` looks for the old value under `uRL` and raises; and the setter of
`age`, a number, is not of the type of `kvo_setter`, so that calling it is undefined. -/
theorem url_age_not_delivered :
    (∃ w, run (step (modelFoundation (text "URL")))
        ((modelProgram (text "setURL:")).initial (fun _ => 3)) [.add 0 1 (text "URL") 7] =
          some w ∧
      ⟨0, 1, text "URL"⟩ ∈ w.accepted ∧ (∃ i ∈ w.state.infos 0, i.key = text "URL") ∧
      ¬ Delivers (modelFoundation (text "URL")) w.state 0 (text "URL") 5) ∧
    ∃ w, run (step (modelFoundation (text "age")))
        ((propertyProgram (text "setAge:") ⟨.void, [.scalar]⟩).initial (fun _ => 3))
        [.add 0 1 (text "age") 7] = some w ∧
      ⟨0, 1, text "age"⟩ ∈ w.accepted ∧ (∃ i ∈ w.state.infos 0, i.key = text "age") ∧
      ¬ Delivers (modelFoundation (text "age")) w.state 0 (text "age") 5 := by
  constructor
  · exact not_delivered_of_run (text "setURL:") (.unknownKey (text "uRL")) (by decide)
      (by decide +kernel)
  · exact not_delivered_of_run (text "setAge:") .undefined (by decide) (by decide +kernel)

end BasicDemo.Observing
