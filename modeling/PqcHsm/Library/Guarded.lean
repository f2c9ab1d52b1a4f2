import PqcHsm.Library.Pool

/-!
# Operations called since a configuration

A property of the shared state that the conditioned steps of a pool keep. What a program does while
the property holds, whatever other threads do between its sections, is a recursion on the program;
`Pool.obeys` carries it to every operation that is called once the property holds.
-/

namespace Sections

variable {ι κ ε σ η α β : Type}

/-- From states of `W`, whatever happens between the sections, the program emits events of `E` only, and
it returns in `Q`. -/
def Guarded (W : σ → Prop) (E : η → Prop) (Q : β → Prop) : Prog ε σ η β → Prop
  | .ret b => Q b
  | .sect act next => ∀ e s, W s → (∀ x ∈ (act e s).2, E x) ∧ Guarded W E Q (next e s)

section Guarded

variable {W : σ → Prop} {E : η → Prop} {γ : Type}

theorem guarded_bind {Q : β → Prop} {Q' : γ → Prop} {p : Prog ε σ η β} {f : β → Prog ε σ η γ}
    (hp : Guarded W E Q p) (hf : ∀ b, Q b → Guarded W E Q' (f b)) : Guarded W E Q' (p.bind f) := by
  induction p with
  | ret b => exact hf b hp
  | sect act next ih =>
    intro e s hW
    obtain ⟨hEvs, hNext⟩ := hp e s hW
    exact ⟨hEvs, ih e s hNext⟩

theorem guarded_atomic {Q : β → Prop} {body : ε → σ → β × σ × List η}
    (h : ∀ e s, W s → (∀ x ∈ (body e s).2.2, E x) ∧ Q (body e s).1) :
    Guarded W E Q (Prog.atomic body) := h

theorem Guarded.mono {Q Q' : β → Prop} {p : Prog ε σ η β} (hp : Guarded W E Q p)
    (hQ : ∀ b, Q b → Q' b) : Guarded W E Q' p := by
  induction p with
  | ret b => exact hQ b hp
  | sect act next ih => exact fun e s hW => ⟨(hp e s hW).1, ih e s (hp e s hW).2⟩

theorem guarded_true (p : Prog ε σ η β) : Guarded W (fun _ => True) (fun _ => True) p := by
  induction p with
  | ret b => trivial
  | sect act next ih => exact fun e s _ => ⟨fun _ _ => trivial, ih e s⟩

/-- What the steps of a relation emit, the programs within it emit. -/
theorem Guarded.of_within {E' : η → Prop} {Q : β → Prop} {R : ε → σ → σ × List η → Prop}
    {p : Prog ε σ η β} (h : Guarded W E' Q p) (hp : p.Within R)
    (hR : ∀ e s r, R e s r → ∀ x ∈ r.2, E x) : Guarded W E Q p := by
  induction p with
  | ret b => exact h
  | sect act next ih =>
    intro e s hW
    obtain ⟨hStep, hNext⟩ := hp e s
    exact ⟨hR e s _ hStep, ih e s (h e s hW).2 hNext⟩

end Guarded

/-- The thread has called an operation in this part of the trace. -/
def CalledIn (t : ι) (tr : List (Entry ι κ η α)) : Prop := ∃ k, .call t k ∈ tr

/-- The operations called in this part of the trace emit events of `E` and return in `Q`. -/
def Obeys (E : η → Prop) (Q : κ → α → Prop) : List (Entry ι κ η α) → Prop
  | [] => True
  | .emit t x :: older => (CalledIn t older → E x) ∧ Obeys E Q older
  | .ret t k a :: older => (CalledIn t older → Q k a) ∧ Obeys E Q older
  | _ :: older => Obeys E Q older

section Obeys

variable {E : η → Prop} {Q : κ → α → Prop} {newest older : List (Entry ι κ η α)} {t : ι}

theorem Obeys.of_append (h : Obeys E Q (newest ++ older)) : Obeys E Q older := by
  induction newest with
  | nil => exact h
  | cons x newest ih =>
    cases x with
    | call u k => exact ih h
    | emit u y => exact ih h.2
    | ret u k a => exact ih h.2
    | crash => exact ih h

theorem Obeys.emit {x : η} (h : Obeys E Q (newest ++ .emit t x :: older)) (hCall : CalledIn t older) :
    E x :=
  h.of_append.1 hCall

theorem Obeys.ret {k : κ} {a : α} (h : Obeys E Q (newest ++ .ret t k a :: older))
    (hCall : CalledIn t older) : Q k a :=
  h.of_append.1 hCall

theorem calledIn_cons_of_ne {x : Entry ι κ η α} (hx : ∀ k, x ≠ .call t k) :
    CalledIn t (x :: older) ↔ CalledIn t older := by
  refine exists_congr fun k => ?_
  rw [List.mem_cons]
  exact or_iff_right fun hEq => hx k hEq.symm

theorem calledIn_emits (u : ι) (evs : List η) :
    CalledIn t ((evs.map (Entry.emit u)).reverse ++ older) ↔ CalledIn t older := by
  refine exists_congr fun k => ?_
  simp

theorem obeys_emits {evs : List η} (hOld : Obeys E Q older)
    (hEvs : CalledIn t older → ∀ x ∈ evs, E x) :
    Obeys E Q ((evs.map (Entry.emit t)).reverse ++ older) := by
  induction evs generalizing older with
  | nil => exact hOld
  | cons x evs ih =>
    rw [List.map_cons, List.reverse_cons, List.append_assoc]
    refine ih ⟨fun hCall => hEvs hCall x List.mem_cons_self, hOld⟩ fun hCall y hy => ?_
    have hBefore : CalledIn t older := (calledIn_cons_of_ne nofun).mp hCall
    exact hEvs hBefore y (List.mem_cons_of_mem _ hy)

end Obeys

section Runs

variable [DecidableEq ι] {P : Pool ι κ ε σ η α} {R : ε → σ → σ × List η → Prop}

/-- The programs that the threads are in the middle of are within the relation. -/
def Pool.ThreadsWithin (R : ε → σ → σ × List η → Prop) (c : Config ι κ ε σ η α) : Prop :=
  ∀ t k p, c.thread t = some (k, p) → Prog.Within R p

theorem Pool.ThreadsWithin.step {c c' : Config ι κ ε σ η α} {l : Act ι κ ε × List η}
    (hSteps : ∀ k, Prog.Within R (P.prog k)) (hStep : P.Step c l c') (h : ThreadsWithin R c) :
    ThreadsWithin R c' := by
  have hOther : ∀ {t : ι} {o : Option (κ × Prog ε σ η α)},
      (∀ k p, o = some (k, p) → Prog.Within R p) → ∀ u k p,
      Function.update c.thread t o u = some (k, p) → Prog.Within R p := by
    intro t o hOwn u k p hp
    by_cases hu : u = t
    · subst u
      rw [Function.update_self] at hp
      exact hOwn k p hp
    · rw [Function.update_of_ne hu] at hp
      exact h u k p hp
  cases hStep with
  | @call t k hIdle =>
    refine hOther ?_
    rintro k' p hp
    cases hp
    exact hSteps k
  | @sect t k act next e hThread =>
    refine hOther ?_
    rintro k' p hp
    cases hp
    exact (h t k _ hThread e c.hist.shared).2
  | ret hThread => exact hOther nofun
  | crash hReset => exact nofun

theorem Pool.threadsWithin_of_reaches {ok : Pool.Cond ι κ ε σ η α} {c : Config ι κ ε σ η α}
    (hSteps : ∀ k, Prog.Within R (P.prog k)) (h : P.Reaches ok c) : ThreadsWithin R c :=
  Transition.Reachable.invariant
    (fun _ hInit t _ _ hp => nomatch (hInit.2.2 t).symm.trans hp)
    (fun _ _ _ hThreads hStep _ => hThreads.step hSteps hStep) h

/-- The operations called since a configuration, under a property that the conditioned steps keep. -/
theorem Pool.obeys {ok : Config ι κ ε σ η α → Act ι κ ε × List η → Config ι κ ε σ η α → Prop}
    {W : σ → Prop} {E : η → Prop} {Q : κ → α → Prop} (hSteps : ∀ k, Prog.Within R (P.prog k))
    (hKeep : ∀ c l c', P.Step c l c' →
      (∀ t e, l.1 = .sect t e → R e c.hist.shared (c'.hist.shared, l.2)) → ok c l c' →
      W c.hist.shared → W c'.hist.shared)
    (hProg : ∀ k, Guarded W E (Q k) (P.prog k)) {c c' : Config ι κ ε σ η α}
    (hThreads : ThreadsWithin R c) (hLeads : Transition.Leads P.system ok c c')
    (hW : W c.hist.shared) :
    W c'.hist.shared ∧ ∃ newer, c'.hist.trace = newer ++ c.hist.trace ∧ Obeys E Q newer := by
  have hInv : ThreadsWithin R c' ∧ W c'.hist.shared ∧ ∃ newer,
      c'.hist.trace = newer ++ c.hist.trace ∧ Obeys E Q newer ∧
      ∀ t k p, c'.thread t = some (k, p) → CalledIn t newer → Guarded W E (Q k) p := by
    refine Transition.Leads.preserves (I := fun c' => ThreadsWithin R c' ∧ W c'.hist.shared ∧
      ∃ newer, c'.hist.trace = newer ++ c.hist.trace ∧ Obeys E Q newer ∧
      ∀ t k p, c'.thread t = some (k, p) → CalledIn t newer → Guarded W E (Q k) p) ?_ hLeads
      ⟨hThreads, hW, [], rfl, trivial, fun _ _ _ _ hCall => nomatch hCall.choose_spec⟩
    rintro c₁ l c₂ ⟨hWithin, hW, newer, hTrace, hObeys, hGuarded⟩ hStep hok
    refine ⟨hWithin.step hSteps hStep, hKeep _ _ _ hStep ?_ hok hW, ?_⟩
    · rintro t e hAct
      cases hStep with
      | sect hThread =>
        cases hAct
        exact (hWithin _ _ _ hThread e _).1
      | call => cases hAct
      | ret => cases hAct
      | crash => cases hAct
    have hOther : ∀ {t : ι} {o : Option (κ × Prog ε σ η α)} {newer' : List (Entry ι κ η α)},
        (∀ k p, o = some (k, p) → CalledIn t newer' → Guarded W E (Q k) p) →
        (∀ u, u ≠ t → CalledIn u newer' → CalledIn u newer) → ∀ u k p,
        Function.update c₁.thread t o u = some (k, p) → CalledIn u newer' → Guarded W E (Q k) p := by
      intro t o newer' hOwn hSame u k p hp hCall
      by_cases hu : u = t
      · subst u
        rw [Function.update_self] at hp
        exact hOwn k p hp hCall
      · rw [Function.update_of_ne hu] at hp
        exact hGuarded u k p hp (hSame u hu hCall)
    cases hStep with
    | @call t k hIdle =>
      refine ⟨.call t k :: newer, by simp [hTrace], hObeys, hOther ?_ fun u hu hCall => ?_⟩
      · rintro k' p hp -
        cases hp
        exact hProg k
      · refine (calledIn_cons_of_ne fun k' hEq => hu ?_).mp hCall
        cases hEq
        rfl
    | @sect t k act next e hThread =>
      have hOwn := hGuarded t k _ hThread
      refine ⟨((act e c₁.hist.shared).2.map (Entry.emit t)).reverse ++ newer, by simp [hTrace],
        obeys_emits hObeys fun hCall => (hOwn hCall e _ hW).1, hOther ?_ fun u _ hCall => ?_⟩
      · rintro k' p hp hCall
        cases hp
        exact (hOwn ((calledIn_emits t _).mp hCall) e _ hW).2
      · exact (calledIn_emits t _).mp hCall
    | @ret t k a hThread =>
      refine ⟨.ret t k a :: newer, by simp [hTrace],
        ⟨hGuarded t k _ hThread, hObeys⟩, hOther nofun fun u _ hCall => ?_⟩
      exact (calledIn_cons_of_ne nofun).mp hCall
    | @crash s hReset =>
      exact ⟨.crash :: newer, by simp [hTrace], hObeys, fun u k p hp => nomatch hp⟩
  obtain ⟨-, hEnd, newer, hTrace, hObeys, -⟩ := hInv
  exact ⟨hEnd, newer, hTrace, hObeys⟩

/-- Run the scheduled actions, as long as each step passes the check. -/
def Pool.follow (P : Pool ι κ ε σ η α) (check : List η → Config ι κ ε σ η α → Bool)
    (c : Config ι κ ε σ η α) : List (Act ι κ ε) → Option (Config ι κ ε σ η α)
  | [] => some c
  | a :: as => (P.schedule c a).bind fun r =>
    if check r.1 r.2 then P.follow check r.2 as else none

theorem Pool.leads_follow {ok : Config ι κ ε σ η α → Act ι κ ε × List η → Config ι κ ε σ η α → Prop}
    {check : List η → Config ι κ ε σ η α → Bool}
    (hCheck : ∀ c l c', check l.2 c' = true → ok c l c') {c c' : Config ι κ ε σ η α}
    {as : List (Act ι κ ε)} (h : P.follow check c as = some c') :
    Transition.Leads P.system ok c c' := by
  induction as generalizing c with
  | nil =>
    cases h
    exact .refl
  | cons a as ih =>
    obtain ⟨r, hStep, hRest⟩ := Option.bind_eq_some_iff.mp h
    split at hRest
    · rename_i hOk
      exact .head ⟨(a, r.1), Pool.schedule_step hStep, hCheck c (a, r.1) r.2 hOk⟩ (ih hRest)
    · cases hRest

end Runs

/-! ### What an operation announces before it returns -/

/-- Before the program returns in `Q`, it emits `x`. -/
def Announces (x : η) (Q : β → Prop) : Prog ε σ η β → Prop
  | .ret b => ¬Q b
  | .sect act next => ∀ e s, x ∈ (act e s).2 ∨ Announces x Q (next e s)

theorem announces_of_not {x : η} {Q : β → Prop} (hQ : ∀ b, ¬Q b) (p : Prog ε σ η β) :
    Announces x Q p := by
  induction p with
  | ret b => exact hQ b
  | sect act next ih => exact fun e s => .inr (ih e s)

theorem announces_bind {γ : Type} {x : η} {Q : γ → Prop} {Q' : β → Prop} {p : Prog ε σ η β}
    {f : β → Prog ε σ η γ} (hp : Guarded (fun _ => True) (fun _ => True) Q' p)
    (hf : ∀ b, Q' b → Announces x Q (f b)) : Announces x Q (p.bind f) := by
  induction p with
  | ret b => exact hf b hp
  | sect act next ih => exact fun e s => .inr (ih e s (hp e s trivial).2)

theorem announces_of_guarded {x : η} {Q : β → Prop} {p : Prog ε σ η β}
    (hp : Guarded (fun _ => True) (fun _ => True) (fun b => ¬Q b) p) : Announces x Q p := by
  induction p with
  | ret b => exact hp
  | sect act next ih => exact fun e s => .inr (ih e s (hp e s trivial).2)

theorem Announces.bind {γ : Type} {x : η} {Q : γ → Prop} {Q' : β → Prop} {p : Prog ε σ η β}
    {f : β → Prog ε σ η γ} (hp : Announces x Q' p) (hf : ∀ b, ¬Q' b → Announces x Q (f b)) :
    Announces x Q (p.bind f) := by
  induction p with
  | ret b => exact hf b hp
  | sect act next ih => exact fun e s => (hp e s).imp id (ih e s)

/-- The thread has emitted `x` since its last call. -/
def AnnouncedIn (t : ι) (x : η) (tr : List (Entry ι κ η α)) : Prop :=
  ∃ newer older, tr = newer ++ .emit t x :: older ∧ ¬CalledIn t newer

theorem AnnouncedIn.cons {t : ι} {x : η} {y : Entry ι κ η α} {tr : List (Entry ι κ η α)}
    (h : AnnouncedIn t x tr) (hy : ∀ k, y ≠ .call t k) : AnnouncedIn t x (y :: tr) := by
  obtain ⟨newer, older, rfl, hNone⟩ := h
  exact ⟨y :: newer, older, rfl, fun hCall => hNone ((calledIn_cons_of_ne hy).mp hCall)⟩

theorem AnnouncedIn.emits {t u : ι} {x : η} {evs : List η} {tr : List (Entry ι κ η α)}
    (h : AnnouncedIn t x tr) : AnnouncedIn t x ((evs.map (Entry.emit u)).reverse ++ tr) := by
  obtain ⟨newer, older, rfl, hNone⟩ := h
  refine ⟨(evs.map (Entry.emit u)).reverse ++ newer, older, by simp, fun hCall => ?_⟩
  exact hNone ((calledIn_emits u evs).mp hCall)

theorem announcedIn_of_mem {t : ι} {x : η} {evs : List η} (tr : List (Entry ι κ η α))
    (hx : x ∈ evs) : AnnouncedIn t x ((evs.map (Entry.emit t)).reverse ++ tr) := by
  obtain ⟨pre, post, rfl⟩ := List.append_of_mem hx
  refine ⟨(post.map (Entry.emit t)).reverse, (pre.map (Entry.emit t)).reverse ++ tr, by simp, ?_⟩
  rintro ⟨k, hk⟩
  simp at hk

/-- An operation that has just returned in `Q` has emitted `x` since it was called. -/
theorem Pool.announced [DecidableEq ι] {P : Pool ι κ ε σ η α} {ok : Pool.Cond ι κ ε σ η α} {x : η}
    {Q : κ → α → Prop} (hProg : ∀ k, Announces x (Q k) (P.prog k)) {c : Config ι κ ε σ η α}
    (h : P.Reaches ok c) {t : ι} {k : κ} {a : α} {older : List (Entry ι κ η α)}
    (hRet : c.hist.trace = .ret t k a :: older) (hQ : Q k a) : AnnouncedIn t x older := by
  have hInv : (∀ t k p, c.thread t = some (k, p) →
      AnnouncedIn t x c.hist.trace ∨ Announces x (Q k) p) ∧
      ∀ t k a older, c.hist.trace = .ret t k a :: older → Q k a → AnnouncedIn t x older := by
    refine Transition.Reachable.invariant (I := fun c => (∀ t k p, c.thread t = some (k, p) →
      AnnouncedIn t x c.hist.trace ∨ Announces x (Q k) p) ∧
      ∀ t k a older, c.hist.trace = .ret t k a :: older → Q k a → AnnouncedIn t x older) ?_ ?_ h
    · rintro c ⟨-, hTrace, hIdle⟩
      exact ⟨fun t k p hp => (nomatch (hIdle t).symm.trans hp),
        fun t k a older hEq => (nomatch hTrace.symm.trans hEq)⟩
    · rintro c l c' ⟨hThreads, hRets⟩ hStep -
      have hOther : ∀ {t : ι} {o : Option (κ × Prog ε σ η α)} {tr : List (Entry ι κ η α)},
          (∀ k p, o = some (k, p) → AnnouncedIn t x tr ∨ Announces x (Q k) p) →
          (∀ u, u ≠ t → AnnouncedIn u x c.hist.trace → AnnouncedIn u x tr) → ∀ u k p,
          Function.update c.thread t o u = some (k, p) →
          AnnouncedIn u x tr ∨ Announces x (Q k) p := by
        intro t o tr hOwn hKeep u k p hp
        by_cases hu : u = t
        · subst u
          rw [Function.update_self] at hp
          exact hOwn k p hp
        · rw [Function.update_of_ne hu] at hp
          exact (hThreads u k p hp).imp (hKeep u hu) id
      cases hStep with
      | @call t k hIdle =>
        refine ⟨hOther ?_ fun u hu hOld => hOld.cons fun k' hEq => hu ?_, nofun⟩
        · rintro k' p hp
          cases hp
          exact .inr (hProg k)
        · cases hEq
          rfl
      | @sect t k act next e hThread =>
        refine ⟨hOther ?_ fun u _ hOld => hOld.emits, fun u k' a older hEq hQ => ?_⟩
        · rintro k' p hp
          cases hp
          rcases hThreads t k _ hThread with hOld | hNext
          · exact .inl hOld.emits
          · rcases hNext e c.hist.shared with hMem | hNext
            · exact .inl (announcedIn_of_mem _ hMem)
            · exact .inr hNext
        · cases hEvs : (act e c.hist.shared).2 with
          | nil =>
            rw [Hist.emits_trace, hEvs] at hEq
            exact hRets u k' a older hEq hQ
          | cons y evs =>
            rw [Hist.emits_trace, hEvs] at hEq
            have hSome : ((y :: evs).map (Entry.emit (κ := κ) (α := α) t)).reverse ≠ [] := by simp
            obtain ⟨z, zs, hz⟩ := List.exists_cons_of_ne_nil hSome
            have hMem : z ∈ ((y :: evs).map (Entry.emit (κ := κ) (α := α) t)).reverse :=
              hz ▸ List.mem_cons_self
            rw [hz] at hEq
            cases hEq
            simp at hMem
      | @ret t k a hThread =>
        refine ⟨hOther nofun fun u _ hOld => hOld.cons nofun, ?_⟩
        rintro u k' a' older hEq hQ
        cases hEq
        rcases hThreads t k _ hThread with hOld | hNot
        · exact hOld
        · exact absurd hQ hNot
      | crash hReset => exact ⟨fun u k p hp => (nomatch hp), nofun⟩
  exact hInv.2 t k a older hRet hQ

end Sections
