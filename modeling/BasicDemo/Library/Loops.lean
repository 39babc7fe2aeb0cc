import Mathlib.Data.List.ProdSigma
import Mathlib.Tactic.Common

namespace BasicDemo.Library.Loops

universe u v w

variable {ε : Type v} {ρ σ α β : Type u}

@[simp] theorem ok_bind (a : α) (f : α → Except ε β) : (Except.ok a >>= f) = f a := rfl

theorem bind_eq_ok {x : Except ε α} {f : α → Except ε β} {b : β} :
    (x >>= f) = .ok b ↔ ∃ a, x = .ok a ∧ f a = .ok b := by
  constructor
  · intro h
    cases x with
    | error e => cases h
    | ok a => exact ⟨a, rfl, h⟩
  · rintro ⟨a, rfl, h⟩
    exact h

/-- Two continuations need to agree on the results only. -/
theorem bind_congr_ok {x : Except ε α} {f g : α → Except ε β}
    (h : ∀ a, x = .ok a → f a = g a) : (x >>= f) = (x >>= g) := by
  cases x with
  | error e => rfl
  | ok a => exact h a rfl

@[simp] theorem pure_eq_ok (a : α) : (pure a : Except ε α) = .ok a := rfl

/-- Rounds `i`, `i + 1`, ... of a loop, as many as the first argument says. -/
def rounds (body : Nat → σ → Except ε σ) : Nat → Nat → σ → Except ε σ
  | 0, _, s => .ok s
  | n + 1, i, s => body i s >>= rounds body n (i + 1)

/-- `for (i = lo; i < hi; i++)` around a body that changes neither `i` nor `hi` and does
not leave the loop; `s` holds the variables that it assigns. -/
def forLoop (lo : Nat) (hi : Int) (s : σ) (body : Nat → σ → Except ε σ) : Except ε σ :=
  rounds body (hi - lo).toNat lo s

/-- How a round ends: with the next one, or by leaving the loop. -/
inductive Round (ρ σ : Type u) where
  | next (s : σ)
  | leave (r : ρ)

/-- What the variables hold behind a loop that is left by `break` only. -/
def Round.value : Round σ σ → σ
  | .next s => s
  | .leave s => s

def roundsUntil (body : Nat → σ → Except ε (Round ρ σ)) : Nat → Nat → σ → Except ε (Round ρ σ)
  | 0, _, s => .ok (.next s)
  | n + 1, i, s => do
    match ← body i s with
    | .next s => roundsUntil body n (i + 1) s
    | .leave r => return .leave r

/-- A `for` loop as above around a body with a `break` or a `return`. -/
def forLoopUntil (lo : Nat) (hi : Int) (s : σ) (body : Nat → σ → Except ε (Round ρ σ)) :
    Except ε (Round ρ σ) :=
  roundsUntil body (hi - lo).toNat lo s

/-- A loop over the elements of a list around a body with a `break` or a `return`. -/
def eachUntil {ι : Type w} (body : ι → σ → Except ε (Round ρ σ)) :
    List ι → σ → Except ε (Round ρ σ)
  | [], s => .ok (.next s)
  | a :: as, s => do
    match ← body a s with
    | .next s => eachUntil body as s
    | .leave r => return .leave r

/-- Why a run has no result: the program went wrong, or has not come to its end yet. -/
inductive Stop (ε : Type v) where
  | fault (e : ε)
  | unfinished

/-- A part that always comes to its end, inside a program that need not. -/
instance : MonadLift (Except ε) (Except (Stop ε)) where
  monadLift
    | .ok a => .ok a
    | .error e => .error (.fault e)

@[simp] theorem lift_ok (a : α) :
    (liftM (Except.ok a : Except ε α) : Except (Stop ε) α) = .ok a := rfl

theorem lift_eq_ok {x : Except ε α} {a : α} :
    (liftM x : Except (Stop ε) α) = .ok a ↔ x = .ok a := by
  cases x with
  | error e =>
    constructor
    all_goals
      intro h
      cases h
  | ok b => rw [lift_ok, Except.ok.injEq, Except.ok.injEq]

/-- A `while` loop, run for less than `fuel` rounds. -/
def whileLoop (body : σ → Except (Stop ε) (Round ρ σ)) : Nat → σ → Except (Stop ε) ρ
  | 0, _ => .error .unfinished
  | fuel + 1, s => do
    match ← body s with
    | .next s => whileLoop body fuel s
    | .leave r => return r

/-- The invariant holds before round `lo` and every round succeeds and keeps it, so the
loop succeeds and the invariant holds after its last round. -/
theorem forLoop_ok {lo n : Nat} {hi : Int} (hn : lo + (hi - lo).toNat = n) {s : σ}
    {body : Nat → σ → Except ε σ} (I : Nat → σ → Prop) (start : I lo s)
    (keep : ∀ i s, lo ≤ i → i < n → I i s → ∃ t, body i s = .ok t ∧ I (i + 1) t) :
    ∃ t, forLoop lo hi s body = .ok t ∧ I n t := by
  unfold forLoop
  generalize (hi - lo).toNat = m at hn ⊢
  induction m generalizing lo s with
  | zero =>
    obtain rfl : lo = n := by omega
    exact ⟨s, rfl, start⟩
  | succ m ih =>
    obtain ⟨t, ht, hI⟩ := keep lo s (Nat.le_refl lo) (by omega) start
    have hrest : ∀ i s, lo + 1 ≤ i → i < n → I i s → ∃ t, body i s = .ok t ∧ I (i + 1) t := by
      intro i s hi
      exact keep i s (by omega)
    obtain ⟨u, hu, hlast⟩ := ih hI hrest (by omega)
    refine ⟨u, ?_, hlast⟩
    rw [rounds, ht, ok_bind]
    exact hu

/-- If the variables before round `i` can only be `f i`, and round `i` succeeds exactly
under `C i`, then the loop succeeds exactly under all of these conditions. -/
theorem forLoop_iff {lo n : Nat} {hi : Int} (hn : lo + (hi - lo).toNat = n)
    {body : Nat → σ → Except ε σ} (f : Nat → σ) (C : Nat → Prop)
    (round : ∀ i, lo ≤ i → i < n → ∀ t, body i (f i) = .ok t ↔ C i ∧ t = f (i + 1)) (t : σ) :
    forLoop lo hi (f lo) body = .ok t ↔ (∀ i, lo ≤ i → i < n → C i) ∧ t = f n := by
  unfold forLoop
  generalize (hi - lo).toNat = m at hn ⊢
  induction m generalizing lo with
  | zero =>
    obtain rfl : lo = n := by omega
    rw [rounds, Except.ok.injEq, eq_comm]
    exact ⟨fun h => ⟨fun i _ _ => by omega, h⟩, And.right⟩
  | succ m ih =>
    have hfirst := round lo (Nat.le_refl lo) (by omega)
    have hrest : rounds body m (lo + 1) (f (lo + 1)) = .ok t ↔
        (∀ i, lo + 1 ≤ i → i < n → C i) ∧ t = f n :=
      ih (fun i hi => round i (by omega)) (by omega)
    rw [rounds, bind_eq_ok]
    constructor
    · rintro ⟨u, hu, ht⟩
      obtain ⟨hC, rfl⟩ := (hfirst u).mp hu
      obtain ⟨hall, hlast⟩ := hrest.mp ht
      refine ⟨?_, hlast⟩
      intro i hi hlt
      rcases Nat.eq_or_lt_of_le hi with rfl | hi
      · exact hC
      · exact hall i hi hlt
    · rintro ⟨hall, hlast⟩
      refine ⟨f (lo + 1), (hfirst _).mpr ⟨hall lo (Nat.le_refl lo) (by omega), rfl⟩, ?_⟩
      exact hrest.mpr ⟨fun i hi => hall i (by omega), hlast⟩

/-- A loop with a way out: every round succeeds, and either keeps the invariant or
leaves with a result that meets `Q`. -/
theorem forLoopUntil_ok {lo n : Nat} {hi : Int} (hn : lo + (hi - lo).toNat = n) {s : σ}
    {body : Nat → σ → Except ε (Round ρ σ)} (I : Nat → σ → Prop) (Q : ρ → Prop)
    (start : I lo s)
    (keep : ∀ i s, lo ≤ i → i < n → I i s →
      (∃ t, body i s = .ok (.next t) ∧ I (i + 1) t) ∨ ∃ r, body i s = .ok (.leave r) ∧ Q r) :
    (∃ t, forLoopUntil lo hi s body = .ok (.next t) ∧ I n t) ∨
      ∃ r, forLoopUntil lo hi s body = .ok (.leave r) ∧ Q r := by
  unfold forLoopUntil
  generalize (hi - lo).toNat = m at hn ⊢
  induction m generalizing lo s with
  | zero =>
    obtain rfl : lo = n := by omega
    exact Or.inl ⟨s, rfl, start⟩
  | succ m ih =>
    have hrest : ∀ i s, lo + 1 ≤ i → i < n → I i s →
        (∃ t, body i s = .ok (.next t) ∧ I (i + 1) t) ∨
          ∃ r, body i s = .ok (.leave r) ∧ Q r := by
      intro i s hi
      exact keep i s (by omega)
    rcases keep lo s (Nat.le_refl lo) (by omega) start with ⟨t, ht, hI⟩ | ⟨r, hr, hQ⟩
    · simp only [roundsUntil, ht, ok_bind]
      exact ih hI hrest (by omega)
    · simp only [roundsUntil, hr, ok_bind, pure_eq_ok]
      exact Or.inr ⟨r, rfl, hQ⟩

section Decided

-- Whether round `i` passes, and what it leaves with, does not depend on the variables.
variable {lo n : Nat} {hi : Int} {body : Nat → σ → Except ε (Round ρ σ)} {P : Nat → Prop}

theorem forLoopUntil_next_iff (hn : lo + (hi - lo).toNat = n)
    (passes : ∀ i s, lo ≤ i → i < n → ((∃ t, body i s = .ok (.next t)) ↔ P i)) (s : σ) :
    (∃ t, forLoopUntil lo hi s body = .ok (.next t)) ↔ ∀ i, lo ≤ i → i < n → P i := by
  unfold forLoopUntil
  generalize (hi - lo).toNat = m at hn ⊢
  induction m generalizing lo s with
  | zero => exact ⟨fun _ i _ _ => by omega, fun _ => ⟨s, rfl⟩⟩
  | succ m ih =>
    have hrest : ∀ t, (∃ u, roundsUntil body m (lo + 1) t = .ok (.next u)) ↔
        ∀ i, lo + 1 ≤ i → i < n → P i :=
      fun t => ih (fun i s hi => passes i s (by omega)) t (by omega)
    have hfirst := passes lo s (Nat.le_refl lo) (by omega)
    constructor
    · rintro ⟨u, hu⟩ i hi hlt
      obtain ⟨round, hround, hu⟩ := bind_eq_ok.mp hu
      cases round with
      | leave r => cases hu
      | next t =>
        rcases Nat.eq_or_lt_of_le hi with rfl | hi
        · exact hfirst.mp ⟨t, hround⟩
        · exact (hrest t).mp ⟨u, hu⟩ i hi hlt
    · intro hall
      obtain ⟨t, ht⟩ := hfirst.mpr (hall lo (Nat.le_refl lo) (by omega))
      simp only [roundsUntil, ht, ok_bind]
      exact (hrest t).mpr (fun i hi => hall i (by omega))

/-- The loop is left with `r` exactly if the first round that does not pass leaves with it. -/
theorem forLoopUntil_leave_iff {L : Nat → ρ → Prop} (hn : lo + (hi - lo).toNat = n)
    (passes : ∀ i s, lo ≤ i → i < n → ((∃ t, body i s = .ok (.next t)) ↔ P i))
    (leaves : ∀ i s r, lo ≤ i → i < n → (body i s = .ok (.leave r) ↔ L i r)) (s : σ) (r : ρ) :
    forLoopUntil lo hi s body = .ok (.leave r) ↔
      ∃ i, lo ≤ i ∧ i < n ∧ (∀ k, lo ≤ k → k < i → P k) ∧ L i r := by
  unfold forLoopUntil
  generalize (hi - lo).toNat = m at hn ⊢
  induction m generalizing lo s with
  | zero =>
    constructor
    · intro h
      cases h
    · rintro ⟨i, hlo, hlt, -⟩
      omega
  | succ m ih =>
    have hrest : ∀ t, roundsUntil body m (lo + 1) t = .ok (.leave r) ↔
        ∃ i, lo + 1 ≤ i ∧ i < n ∧ (∀ k, lo + 1 ≤ k → k < i → P k) ∧ L i r :=
      fun t => ih (fun i s hi => passes i s (by omega)) (fun i s r hi => leaves i s r (by omega)) t
        (by omega)
    have hfirst := passes lo s (Nat.le_refl lo) (by omega)
    constructor
    · intro h
      obtain ⟨round, hround, h⟩ := bind_eq_ok.mp h
      cases round with
      | leave r' =>
        cases h
        exact ⟨lo, Nat.le_refl lo, by omega, fun k _ _ => by omega,
          (leaves lo s r (Nat.le_refl lo) (by omega)).mp hround⟩
      | next t =>
        obtain ⟨i, hi, hlt, hbefore, hL⟩ := (hrest t).mp h
        refine ⟨i, by omega, hlt, ?_, hL⟩
        intro k hk hki
        rcases Nat.eq_or_lt_of_le hk with rfl | hk
        · exact hfirst.mp ⟨t, hround⟩
        · exact hbefore k hk hki
    · rintro ⟨i, hi, hlt, hbefore, hL⟩
      rcases Nat.eq_or_lt_of_le hi with rfl | hi
      · simp only [roundsUntil, (leaves lo s r (Nat.le_refl lo) (by omega)).mpr hL, ok_bind,
          pure_eq_ok]
      · obtain ⟨t, ht⟩ := hfirst.mpr (hbefore lo (Nat.le_refl lo) hi)
        simp only [roundsUntil, ht, ok_bind]
        exact (hrest t).mpr ⟨i, hi, hlt, fun k hk => hbefore k (by omega), hL⟩

end Decided

section Each

variable {ι κ : Type w}

theorem forLoopUntil_eq_each {lo n : Nat} {hi : Int} (hn : (hi - lo).toNat = n) (s : σ)
    (body : Nat → σ → Except ε (Round ρ σ)) :
    forLoopUntil lo hi s body = eachUntil body (List.range' lo n) s := by
  rw [forLoopUntil, hn]
  clear hn
  induction n generalizing lo s with
  | zero => rfl
  | succ n ih =>
    rw [roundsUntil, List.range'_succ, eachUntil]
    congr
    funext round
    cases round with
    | next t => exact ih t
    | leave r => rfl

theorem eachUntil_map (body : κ → σ → Except ε (Round ρ σ)) (f : ι → κ) (as : List ι) (s : σ) :
    eachUntil body (as.map f) s = eachUntil (fun a => body (f a)) as s := by
  induction as generalizing s with
  | nil => rfl
  | cons a as ih => simp only [List.map_cons, eachUntil, ih]

theorem eachUntil_append (body : ι → σ → Except ε (Round ρ σ)) (as bs : List ι) (s : σ) :
    eachUntil body (as ++ bs) s = do
      match ← eachUntil body as s with
      | .next s => eachUntil body bs s
      | .leave r => return .leave r := by
  induction as generalizing s with
  | nil => rfl
  | cons a as ih =>
    rw [List.cons_append, eachUntil, eachUntil, bind_assoc]
    congr
    funext round
    cases round with
    | next t => exact ih t
    | leave r => rfl

/-- Two nested loops are one loop over the pairs. -/
theorem eachUntil_product (body : ι → κ → σ → Except ε (Round ρ σ)) (as : List ι) (bs : List κ)
    (s : σ) :
    eachUntil (fun a => eachUntil (body a) bs) as s =
      eachUntil (fun p => body p.1 p.2) (as ×ˢ bs) s := by
  induction as generalizing s with
  | nil => rfl
  | cons a as ih =>
    rw [eachUntil, List.product_cons, eachUntil_append, eachUntil_map]
    congr
    funext round
    cases round with
    | next t => exact ih t
    | leave r => rfl

/-- The invariant speaks of the elements that have been passed. -/
theorem eachUntil_ok {body : ι → σ → Except ε (Round ρ σ)} {as : List ι} {s : σ}
    (I : List ι → σ → Prop) (Q : ρ → Prop) (start : I [] s)
    (keep : ∀ front a back s, as = front ++ a :: back → I front s →
      (∃ t, body a s = .ok (.next t) ∧ I (front ++ [a]) t) ∨ ∃ r, body a s = .ok (.leave r) ∧ Q r) :
    (∃ t, eachUntil body as s = .ok (.next t) ∧ I as t) ∨
      ∃ r, eachUntil body as s = .ok (.leave r) ∧ Q r := by
  have from_here : ∀ done rest s, as = done ++ rest → I done s →
      (∃ t, eachUntil body rest s = .ok (.next t) ∧ I as t) ∨
        ∃ r, eachUntil body rest s = .ok (.leave r) ∧ Q r := by
    intro done rest
    induction rest generalizing done with
    | nil =>
      intro s has hI
      rw [List.append_nil] at has
      exact Or.inl ⟨s, rfl, has ▸ hI⟩
    | cons a rest ih =>
      intro s has hI
      rcases keep done a rest s has hI with ⟨t, ht, hI⟩ | ⟨r, hr, hQ⟩
      · simp only [eachUntil, ht, ok_bind]
        exact ih (done ++ [a]) t (by simpa using has) hI
      · simp only [eachUntil, hr, ok_bind, pure_eq_ok]
        exact Or.inr ⟨r, rfl, hQ⟩
  exact from_here [] as s rfl start

end Each

/-- Every round succeeds, and either leaves with a result that meets `Q` or keeps the
invariant and lowers `m`: the loop comes to its end in at most `m s` further rounds. -/
theorem whileLoop_ok {body : σ → Except (Stop ε) (Round ρ σ)} (I : σ → Prop) (Q : ρ → Prop)
    (m : σ → Nat)
    (keep : ∀ s, I s → (∃ t, body s = .ok (.next t) ∧ I t ∧ m t < m s) ∨
      ∃ r, body s = .ok (.leave r) ∧ Q r)
    {fuel : Nat} {s : σ} (start : I s) (enough : m s < fuel) :
    ∃ r, whileLoop body fuel s = .ok r ∧ Q r := by
  induction fuel generalizing s with
  | zero => omega
  | succ fuel ih =>
    rcases keep s start with ⟨t, ht, hI, hm⟩ | ⟨r, hr, hQ⟩
    · simp only [whileLoop, ht, ok_bind]
      exact ih hI (by omega)
    · simp only [whileLoop, hr, ok_bind, pure_eq_ok]
      exact ⟨r, rfl, hQ⟩

/-- Two loops whose rounds agree wherever the invariant holds run alike, and what they end
with meets `Q`. -/
theorem whileLoop_congr {body body' : σ → Except (Stop ε) (Round ρ σ)} (I : σ → Prop)
    (Q : ρ → Prop) (same : ∀ s, I s → body s = body' s)
    (keep : ∀ s t, I s → body' s = .ok (.next t) → I t)
    (leave : ∀ s r, I s → body' s = .ok (.leave r) → Q r) {s : σ} (start : I s) (fuel : Nat) :
    whileLoop body fuel s = whileLoop body' fuel s ∧
      ∀ r, whileLoop body' fuel s = .ok r → Q r := by
  induction fuel generalizing s with
  | zero =>
    refine ⟨rfl, ?_⟩
    intro r hr
    cases hr
  | succ fuel ih =>
    rw [whileLoop, whileLoop, same s start]
    cases hround : body' s with
    | error e =>
      refine ⟨rfl, ?_⟩
      intro r hr
      cases hr
    | ok round =>
      cases round with
      | next t => exact ih (keep s t start hround)
      | leave r =>
        refine ⟨rfl, ?_⟩
        intro r' hr
        cases hr
        exact leave s r start hround

/-- Whatever result `x` has, `y` has it too. -/
def Extends (x y : Except ε α) : Prop := ∀ a, x = .ok a → y = .ok a

theorem Extends.refl (x : Except ε α) : Extends x x := fun _ h => h

theorem Extends.bind {x y : Except ε α} {f g : α → Except ε β} (h : Extends x y)
    (hf : ∀ a, Extends (f a) (g a)) : Extends (x >>= f) (y >>= g) := by
  intro b hb
  cases hx : x with
  | error e =>
    rw [hx] at hb
    cases hb
  | ok a =>
    rw [hx, ok_bind] at hb
    rw [h a hx, ok_bind]
    exact hf a b hb

/-- More rounds do not change a result. -/
theorem whileLoop_extends {body body' : σ → Except (Stop ε) (Round ρ σ)}
    (h : ∀ s, Extends (body s) (body' s)) {fuel fuel' : Nat} (hle : fuel ≤ fuel') (s : σ) :
    Extends (whileLoop body fuel s) (whileLoop body' fuel' s) := by
  induction fuel generalizing fuel' s with
  | zero =>
    intro r hr
    cases hr
  | succ fuel ih =>
    obtain ⟨n, rfl⟩ : ∃ n, fuel' = n + 1 := ⟨fuel' - 1, by omega⟩
    refine (h s).bind ?_
    intro round
    cases round with
    | next t => exact ih (by omega) t
    | leave r => exact Extends.refl _

/-- The program comes to its end with `a`, given enough fuel. -/
def Returns (run : Nat → Except (Stop ε) α) (a : α) : Prop :=
  ∃ n, ∀ fuel, n < fuel → run fuel = .ok a

theorem Returns.of_extends {run : Nat → Except (Stop ε) α} {n : Nat} {a : α} (h : run n = .ok a)
    (more : ∀ {fuel}, n ≤ fuel → Extends (run n) (run fuel)) : Returns run a := by
  refine ⟨n, ?_⟩
  intro fuel hfuel
  exact more (Nat.le_of_lt hfuel) a h

theorem Returns.unique {run : Nat → Except (Stop ε) α} {a b : α} (h : Returns run a)
    (h' : Returns run b) : a = b := by
  obtain ⟨n, hn⟩ := h
  obtain ⟨m, hm⟩ := h'
  have ha := hn (n + m + 1) (by omega)
  rw [hm (n + m + 1) (by omega)] at ha
  exact (Except.ok.inj ha).symm

end BasicDemo.Library.Loops
