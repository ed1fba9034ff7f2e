import MyJavaExample.Mm.PrivateMemory

/-!
# Runs over private memories

Every action is a step of the abstract machine of private memories, so that a
run of the system is a run of that machine.  A task that goes on reads its own
last writes and what it had before, whatever the others do; after `fork` parent
and child go on from one snapshot.
-/

namespace MyJavaExample.Mm

open Lib

section Steps

variable {bounds : Bounds} {lost : List ℕ} {s s' : Sys} {a : Action} {nr : ℕ} {t : Task}

/-- The memory changes and the tasks stay. -/
theorem Sys.Inv.quiet (h : s.Inv bounds lost) (htask : s'.task = s.task)
    (hbytes : ownByteAt s'.mem = ownByteAt s.mem) : Effect.quiet.Step s.view s'.view := by
  funext b
  exact h.view_frame (by rw [Sys.live, Sys.live, htask]) fun y _ => congrFun hbytes y

/-- A page that the kernel holds is read through no entry. -/
theorem Sys.Inv.fill_own (h : s.Inv bounds lost) {p : ℕ} (hp : p ∈ s.kernel)
    (content : ℕ → UInt8) :
    ownByteAt { s.mem with bytes := Function.update s.mem.bytes p content } = ownByteAt s.mem := by
  obtain ⟨held, hc, hheld⟩ := h.pages
  obtain ⟨-, hunref⟩ := hc.counted.held_unreferenced (hheld.kernel p hp)
  funext y
  refine ownByteAt_of_frame rfl fun e he => Function.update_of_ne ?_ ..
  exact fun heq => hunref (.inr y) (heq ▸ refOf_entry he)

/-- The entry of an address that is read-only is made writable. -/
theorem Sys.Inv.doWpPage_loads (h : s.Inv bounds lost) (hlive : s.live nr = some t) {x : ℕ}
    (hx : x < t.dataLimit) (hpresent : s.mem.lookup (t.startCode + x) ≠ none) {m : Memory}
    (hwp : Mm.doWpPage (t.startCode + x) s.mem = some m) : Loads nr s.mem m := by
  obtain ⟨held, hc, -⟩ := h.pages
  obtain ⟨hlookup, hd, hi, hd4, -⟩ := h.lookup hlive hx s.mem
  rw [hlookup] at hpresent
  obtain ⟨e, he⟩ := Option.ne_none_iff_exists'.1 hpresent
  obtain ⟨t', hdir, -, -⟩ := entryAt_eq_some.1 he
  rw [Mm.doWpPage, hd, hi, (dirRef_eq_some.1 hdir).2.2] at hwp
  obtain ⟨hkept, hothers⟩ := unWpPage_own hc hdir he hwp
  exact .of_entry (h.place_div hlive hx) hkept hothers

theorem Sys.Inv.writeVerify_loads (h : s.Inv bounds lost) (hlive : s.live nr = some t) {x : ℕ}
    (hx : x < t.dataLimit) {m : Memory} (hverify : Mm.writeVerify (t.startCode + x) s.mem = some m) :
    Loads nr s.mem m := by
  obtain ⟨held, hc, -⟩ := h.pages
  obtain ⟨-, hd, hi, hd4, -⟩ := h.lookup hlive hx s.mem
  unfold Mm.writeVerify at hverify
  rw [hd, hi] at hverify
  dsimp only at hverify
  split at hverify
  next hpresent =>
    have hdir := dirRef_eq_some.2 ⟨hd4, hpresent.1, rfl⟩
    have he := entryAt_eq_some.2 ⟨_, hdir, hpresent.2.1, rfl⟩
    obtain ⟨hkept, hothers⟩ := unWpPage_own hc hdir he hverify
    exact .of_entry (h.place_div hlive hx) hkept hothers
  next =>
    cases hverify
    exact .of_eq rfl

theorem Sys.Inv.put_loads (h : s.Inv bounds lost) (hlive : s.live nr = some t) {p x : ℕ}
    (hp : p ∈ s.kernel) (habsent : s.absent t x) {m : Memory}
    (hput : putPage p (t.startCode + x) s.mem = some m) : Loads nr s.mem m := by
  obtain ⟨held, hc, hheld⟩ := h.pages
  obtain ⟨hlookup, hd, hi, hd4, -⟩ := h.lookup hlive habsent.1 s.mem
  have hmem := hheld.kernel p hp
  have hc' := hc.perm (List.perm_cons_erase hmem)
  obtain ⟨-, -, hentry, hkeeps⟩ := putPage_spec hc' hd hi hd4 (hlookup ▸ habsent.2) hput
  refine .of_mapped (h.place_div hlive habsent.1) (hlookup ▸ habsent.2) fun y hy => ?_
  refine hc.ownByteAt_mapped (fun z hz => ?_) hkeeps hy
  rw [hentry, Function.update_of_ne (show z ≠ ((place nr x).1, (place nr x).2) from hz)]

/-- `try_to_share` maps a page of another task. -/
theorem Sys.Inv.tryToShare_loads (h : s.Inv bounds lost) (hlive : s.live nr = some t) {p x : ℕ}
    {source : Task} (hsource : s.live p = some source) (hne : nr ≠ p) (habsent : s.absent t x)
    {m : Memory} (hshare : Mm.tryToShare x source.startCode t.startCode s.mem = .shared m) :
    Loads nr s.mem m := by
  obtain ⟨held, hc, -⟩ := h.pages
  obtain ⟨hs, hpos, -⟩ := Sys.live_eq_some.1 hsource
  obtain ⟨hlookup, -⟩ := h.lookup hlive habsent.1 s.mem
  have hshares := h.shares hlive hs hpos hne.symm habsent rfl hc
  rw [hshare] at hshares
  obtain ⟨-, -, hframes, -, hkeeps⟩ := hshares
  exact .of_mapped (h.place_div hlive habsent.1) (hlookup ▸ habsent.2) fun y hy =>
    hc.ownByteAt_mapped hframes hkeeps hy

/-- A zombie has no memory any more. -/
theorem Sys.Inv.release_quiet (h : s.Inv bounds lost) (ht : s.task nr = some t) (hz : t.zombie)
    {m : Memory} (hpage : freePage t.page s.mem = .ok m) :
    Effect.quiet.Step s.view
      (Sys.view { s with mem := m, task := Function.update s.task nr none }) := by
  funext b
  refine h.view_frame ?_ fun y _ => congrFun (freePage_own hpage) y
  by_cases hb : b = nr
  · subst hb
    rw [Sys.live, Sys.live, ht, Option.bind_some, if_neg fun hno => hno.2 hz]
    dsimp only
    rw [Function.update_self, Option.bind_none]
  · exact Sys.live_update_of_ne hb

/-- Every action but `sys_shmget` is a step of the abstract machine. -/
theorem Sys.Inv.exec_effect (h : s.Inv bounds lost) (ha : a.isShmget = false)
    (hexec : s.exec a = .ok s') : (a.effect s s').Step s.view s'.view := by
  obtain ⟨held, hc, hheld⟩ := h.pages
  cases a with
  | allocate =>
      rw [Sys.exec] at hexec
      split at hexec
      next =>
        cases hexec
        rfl
      next p m hget =>
        cases hexec
        exact h.quiet rfl (hc.ownByteAt_handed (hc.handed hget))
  | free page =>
      rw [Sys.exec] at hexec
      split at hexec
      next =>
        obtain ⟨m, hfree, hs'⟩ := bind_eq_ok hexec
        cases hs'
        exact h.quiet rfl (freePage_own hfree)
      next =>
        cases hexec
        rfl
  | fill page content =>
      rw [Sys.exec] at hexec
      split at hexec
      next hp =>
        cases hexec
        exact h.quiet rfl (h.fill_own hp content)
      next =>
        cases hexec
        rfl
  | put nr page x =>
      rw [Sys.exec] at hexec
      split at hexec
      next hdead =>
        cases hexec
        exact Sys.faulted_of_dead hdead _
      next current hlive =>
        split at hexec
        next hcond =>
          split at hexec
          next =>
            cases hexec
            exact Sys.faulted_self hlive
          next m hput =>
            cases hexec
            rw [Action.effect, Sys.faulted, show Sys.live (Sys.mk m s.task (s.kernel.erase page)
              s.shm) nr = some current from hlive, if_pos (by rfl)]
            exact (h.put_loads hlive hcond.1 hcond.2 hput).step h hlive
        next =>
          cases hexec
          exact Sys.faulted_self hlive
  | getEmptyPage nr x =>
      rw [Sys.exec] at hexec
      split at hexec
      next hdead =>
        cases hexec
        exact Sys.faulted_of_dead hdead _
      next current hlive =>
        split at hexec
        next habsent =>
          obtain ⟨hlookup, hd, hi, hd4, -⟩ := h.lookup hlive habsent.1 s.mem
          exact h.mapped_loads hlive habsent hc
            (getEmptyPage_spec hc hd hi hd4 (hlookup ▸ habsent.2)) hc.getEmptyPage_keeps hexec
        next =>
          cases hexec
          exact Sys.faulted_self hlive
  | tryToShare nr p x =>
      rw [Sys.exec] at hexec
      cases hlive : s.live nr with
      | none =>
          rw [hlive] at hexec
          cases hexec
          exact Sys.faulted_of_dead hlive _
      | some current =>
          rw [hlive] at hexec
          split at hexec
          next hcurrent hsource =>
            cases hcurrent
            split at hexec
            next hcond =>
              split at hexec
              next m hshare =>
                cases hexec
                rw [Action.effect, Sys.faulted, show Sys.live { s with mem := m } nr = some current
                  from hlive, if_pos (by rfl)]
                exact (h.tryToShare_loads hlive hsource hcond.1 hcond.2 hshare).step h hlive
              next =>
                cases hexec
                exact Sys.faulted_self hlive
              next => exact h.exit_faulted hlive hexec _
              next => cases hexec
            next =>
              cases hexec
              exact Sys.faulted_self hlive
          next =>
            cases hexec
            exact Sys.faulted_self hlive
  | doNoPage nr iCount content x =>
      rw [Sys.exec] at hexec
      split at hexec
      next hdead =>
        cases hexec
        exact Sys.faulted_of_dead hdead _
      next current hlive =>
        split at hexec
        next habsent =>
          exact h.mapped_loads hlive habsent hc (h.doNoPage hlive habsent hc iCount content)
            (hc.doNoPage_keeps iCount content x) hexec
        next =>
          cases hexec
          exact Sys.faulted_self hlive
  | doWpPage nr x =>
      rw [Sys.exec] at hexec
      split at hexec
      next hdead =>
        cases hexec
        exact Sys.faulted_of_dead hdead _
      next current hlive =>
        split at hexec
        next hcond =>
          split at hexec
          next => exact h.exit_faulted hlive hexec _
          next m hwp =>
            cases hexec
            exact h.unWp_loads hlive (h.doWpPage_loads hlive hcond.1 hcond.2 hwp)
        next =>
          cases hexec
          exact Sys.faulted_self hlive
  | writeVerify nr x =>
      rw [Sys.exec] at hexec
      split at hexec
      next hdead =>
        cases hexec
        exact Sys.faulted_of_dead hdead _
      next current hlive =>
        split at hexec
        next hx =>
          split at hexec
          next => exact h.exit_faulted hlive hexec _
          next m hverify =>
            cases hexec
            exact h.unWp_loads hlive (h.writeVerify_loads hlive hx hverify)
        next =>
          cases hexec
          exact Sys.faulted_self hlive
  | write nr iCount content x v =>
      rw [Sys.exec] at hexec
      rw [Action.effect]
      cases hlive : s.live nr with
      | none =>
          rw [hlive] at hexec
          cases hexec
          rfl
      | some current =>
          rw [hlive] at hexec
          dsimp only at hexec ⊢
          split at hexec
          next hx =>
            rw [if_pos hx]
            exact h.write_step hlive hx hexec
          next hx =>
            cases hexec
            rw [if_neg hx]
            rfl
  | fork nr child pid =>
      rw [Sys.exec] at hexec
      have hself : s' = s → (Action.effect (.fork nr child pid) s s').Step s.view s'.view := by
        rintro rfl
        rw [Action.effect, if_neg fun hno => ?_]
        · rfl
        · rw [Option.isNone_iff_eq_none.1 hno.1] at hno
          simp at hno
      split at hexec
      next =>
        cases hexec
        exact hself rfl
      next current ht =>
        split at hexec
        next hcond =>
          exact h.fork_step ht (by simpa using hcond.1) hcond.2.1 hcond.2.2.1 hcond.2.2.2 hexec
        next =>
          cases hexec
          exact hself rfl
  | exit nr =>
      rw [Sys.exec] at hexec
      split at hexec
      next hdead =>
        cases hexec
        exact (Function.update_eq_self_iff.2 (Sys.view_of_dead hdead).symm).symm
      next current hlive => exact (h.exit_clears hlive hexec).2
  | release nr =>
      rw [Sys.exec] at hexec
      split at hexec
      next =>
        cases hexec
        rfl
      next p ht =>
        split at hexec
        next hcond =>
          obtain ⟨m, hpage, hs'⟩ := bind_eq_ok hexec
          cases hs'
          exact h.release_quiet ht hcond.2 hpage
        next =>
          cases hexec
          rfl
  | execve nr aText aData inode =>
      rw [Sys.exec] at hexec
      rw [Action.effect]
      split at hexec
      next hdead =>
        cases hexec
        split
        next => exact (Function.update_eq_self_iff.2 (Sys.view_of_dead hdead).symm).symm
        next => rfl
      next current hlive =>
        split at hexec
        next hsize =>
          rw [if_pos hsize]
          exact h.execve_clears hlive hsize hexec
        next hsize =>
          cases hexec
          rw [if_neg hsize]
          rfl
  | shmget nr key size => cases ha
  | shmat nr shmid =>
      cases hexec
      exact h.quiet rfl rfl

end Steps

/-! ## Tasks that go on -/

/-- The action gives the slot a new program. -/
def Action.renews (nr : ℕ) : Action → Bool
  | .fork _ child _ => child = nr
  | .execve nr' _ _ _ => nr' = nr
  | _ => false

/-- The byte that the action writes at the address, `r` if it does not. -/
def Action.written (nr x : ℕ) (r : Option UInt8) : Action → Option UInt8
  | .write nr' _ _ z v => if nr' = nr ∧ z = x then some v else r
  | _ => r

section Tasks

variable {s s' : Sys} {a : Action} {nr b : ℕ} {current t : Task}

/-- The task stays as it is or runs no more. -/
def Sys.Stays (s s' : Sys) (nr : ℕ) : Prop := s'.live nr = s.live nr ∨ s'.live nr = none

theorem doExit_stays (h : doExit b current s = .ok s') (nr : ℕ) :
    (nr = b → s'.live nr = none) ∧ s.Stays s' nr := by
  obtain ⟨m, -, hs'⟩ := bind_eq_ok h
  cases hs'
  have hdead : Sys.live (Sys.mk m (Function.update s.task b
      (some { current with executable := none, zombie := true })) s.kernel s.shm) b = none := by
    rw [Sys.live]
    dsimp only
    rw [Function.update_self]
    exact if_neg fun hno => hno.2 rfl
  by_cases hb : nr = b
  · subst hb
    exact ⟨fun _ => hdead, .inr hdead⟩
  · exact ⟨fun hno => absurd hno hb, .inl (Sys.live_update_of_ne hb)⟩

theorem settle_stays {outcome : Outcome} (h : s.settle b current outcome = .ok s') (nr : ℕ) :
    s.Stays s' nr := by
  cases outcome with
  | done m =>
      cases h
      exact .inl rfl
  | oom m => exact (doExit_stays h nr).2
  | panic message => cases h

theorem copyProcess_stays {child : ℕ} {pid : ℤ} (h : copyProcess child pid current s = .ok s')
    (hne : child ≠ nr) : s.Stays s' nr := by
  unfold copyProcess at h
  split at h
  next =>
    cases h
    exact .inl rfl
  next =>
    obtain ⟨⟨ok, m₁⟩, -, hrest⟩ := bind_eq_ok h
    cases ok with
    | true =>
        cases hrest
        exact .inl (Sys.live_update_of_ne hne.symm)
    | false =>
        obtain ⟨m₂, -, hs'⟩ := bind_eq_ok hrest
        cases hs'
        exact .inl rfl

/-- A task that an action does not renew stays as it is or ends. -/
theorem Sys.exec_stays (ha : a.isShmget = false) (hno : a.renews nr = false)
    (h : s.exec a = .ok s') : s.Stays s' nr := by
  cases a with
  | allocate =>
      rw [Sys.exec] at h
      split at h <;> cases h <;> exact .inl rfl
  | free page =>
      rw [Sys.exec] at h
      split at h
      next =>
        obtain ⟨m, -, hs'⟩ := bind_eq_ok h
        cases hs'
        exact .inl rfl
      next =>
        cases h
        exact .inl rfl
  | fill page content =>
      rw [Sys.exec] at h
      split at h <;> cases h <;> exact .inl rfl
  | put b page x =>
      rw [Sys.exec] at h
      split at h
      next =>
        cases h
        exact .inl rfl
      next =>
        split at h
        next => split at h <;> cases h <;> exact .inl rfl
        next =>
          cases h
          exact .inl rfl
  | getEmptyPage b x =>
      rw [Sys.exec] at h
      split at h
      next =>
        cases h
        exact .inl rfl
      next =>
        split at h
        next => exact settle_stays h nr
        next =>
          cases h
          exact .inl rfl
  | tryToShare b p x =>
      rw [Sys.exec] at h
      split at h
      next =>
        split at h
        next =>
          split at h
          next =>
            cases h
            exact .inl rfl
          next =>
            cases h
            exact .inl rfl
          next => exact (doExit_stays h nr).2
          next => cases h
        next =>
          cases h
          exact .inl rfl
      next =>
        cases h
        exact .inl rfl
  | doNoPage b iCount content x =>
      rw [Sys.exec] at h
      split at h
      next =>
        cases h
        exact .inl rfl
      next =>
        split at h
        next => exact settle_stays h nr
        next =>
          cases h
          exact .inl rfl
  | doWpPage b x =>
      rw [Sys.exec] at h
      split at h
      next =>
        cases h
        exact .inl rfl
      next =>
        split at h
        next =>
          split at h
          next => exact (doExit_stays h nr).2
          next =>
            cases h
            exact .inl rfl
        next =>
          cases h
          exact .inl rfl
  | writeVerify b x =>
      rw [Sys.exec] at h
      split at h
      next =>
        cases h
        exact .inl rfl
      next =>
        split at h
        next =>
          split at h
          next => exact (doExit_stays h nr).2
          next =>
            cases h
            exact .inl rfl
        next =>
          cases h
          exact .inl rfl
  | write b iCount content x v =>
      rw [Sys.exec] at h
      split at h
      next =>
        cases h
        exact .inl rfl
      next =>
        split at h
        next => exact settle_stays h nr
        next =>
          cases h
          exact .inl rfl
  | fork b child pid =>
      rw [Sys.exec] at h
      split at h
      next =>
        cases h
        exact .inl rfl
      next =>
        split at h
        next => exact copyProcess_stays h (by simpa [Action.renews] using hno)
        next =>
          cases h
          exact .inl rfl
  | exit b =>
      rw [Sys.exec] at h
      split at h
      next =>
        cases h
        exact .inl rfl
      next => exact (doExit_stays h nr).2
  | release b =>
      rw [Sys.exec] at h
      split at h
      next =>
        cases h
        exact .inl rfl
      next =>
        split at h
        next =>
          obtain ⟨m, -, hs'⟩ := bind_eq_ok h
          cases hs'
          by_cases hb : nr = b
          · subst hb
            refine .inr ?_
            rw [Sys.live]
            dsimp only
            rw [Function.update_self, Option.bind_none]
          · exact .inl (Sys.live_update_of_ne hb)
        next =>
          cases h
          exact .inl rfl
  | execve b aText aData inode =>
      rw [Sys.exec] at h
      split at h
      next =>
        cases h
        exact .inl rfl
      next =>
        split at h
        next =>
          obtain ⟨m, -, hs'⟩ := bind_eq_ok h
          cases hs'
          refine .inl (Sys.live_update_of_ne ?_)
          rintro rfl
          simp [Action.renews] at hno
        next =>
          cases h
          exact .inl rfl
  | shmget b key size => cases ha
  | shmat b shmid =>
      cases h
      exact .inl rfl

/-- A task that runs at the end of a run and was not renewed ran all along. -/
theorem Sys.run_live {bs : List Action} (hbs : ∀ b ∈ bs, b.isShmget = false)
    (hno : ∀ b ∈ bs, b.renews nr = false) (hrun : Sys.run bs s = .ok s')
    (hlive : s'.live nr = some t) : s.live nr = some t := by
  induction bs generalizing s with
  | nil =>
      cases hrun
      exact hlive
  | cons a bs ih =>
      obtain ⟨s₁, hexec, hrest⟩ := bind_eq_ok hrun
      have h₁ := ih (fun b hb => hbs b (List.mem_cons_of_mem a hb))
        (fun b hb => hno b (List.mem_cons_of_mem a hb)) hrest
      rcases Sys.exec_stays (hbs a List.mem_cons_self) (hno a List.mem_cons_self) hexec with h | h
      · rw [← h, h₁]
      · rw [h] at h₁
        cases h₁

theorem Sys.exec_exit (h : s.exec (.exit nr) = .ok s') : s'.live nr = none := by
  rw [Sys.exec] at h
  split at h
  next hdead =>
    cases h
    exact hdead
  next => exact (doExit_stays h nr).1 rfl

/-- For a task that goes on the effect of an action is what the action says. -/
theorem Action.effect_written (hlive : s.live nr = some t) (hlive' : s'.live nr = some t) {x : ℕ}
    (hx : x < t.dataLimit) (r : Option UInt8) :
    (a.effect s s').written nr x r = a.written nr x r := by
  have hfault : ∀ b, (s'.faulted b (.load b)).written nr x r = r := by
    intro b
    rw [Sys.faulted]
    split <;> rfl
  cases a with
  | write b iCount content z v =>
      rw [Action.effect, Action.written]
      by_cases heq : b = nr ∧ z = x
      · obtain ⟨rfl, rfl⟩ := heq
        rw [hlive]
        dsimp only
        rw [if_pos hx, Sys.faulted, hlive', if_pos (by rfl), if_pos ⟨rfl, rfl⟩]
        exact if_pos ⟨rfl, rfl⟩
      · rw [if_neg heq]
        split
        next => rfl
        next =>
          split
          next =>
            rw [Sys.faulted]
            split
            next => exact if_neg heq
            next => rfl
          next => rfl
  | fork b child pid =>
      rw [Action.effect]
      split <;> rfl
  | execve b aText aData inode =>
      rw [Action.effect]
      split <;> rfl
  | put b page z => exact hfault b
  | getEmptyPage b z => exact hfault b
  | tryToShare b p z => exact hfault b
  | doNoPage b iCount content z => exact hfault b
  | doWpPage b z => exact hfault b
  | writeVerify b z => exact hfault b
  | allocate => rfl
  | free page => rfl
  | fill page content => rfl
  | exit b => rfl
  | release b => rfl
  | shmget b key size => rfl
  | shmat b shmid => rfl

theorem Action.not_effect_renews (hno : a.renews nr = false) (hexec : s.exec a = .ok s')
    (hlive' : s'.live nr = some t) : ¬(a.effect s s').renews nr := by
  have hfault : ∀ (b : ℕ) (e : Effect ℕ ℕ UInt8), ¬e.renews nr → ¬(s'.faulted b e).renews nr := by
    intro b e he
    rw [Sys.faulted]
    split
    next => exact he
    next hdead =>
      rintro rfl
      rw [hlive'] at hdead
      exact hdead rfl
  cases a with
  | write b iCount content z v =>
      rw [Action.effect]
      split
      next => exact id
      next =>
        split
        next => exact hfault b _ id
        next => exact id
  | fork b child pid =>
      rw [Action.effect]
      split
      next => exact fun heq => absurd (show child = nr from heq) (by simpa [Action.renews] using hno)
      next => exact id
  | execve b aText aData inode =>
      rw [Action.effect]
      split
      next => exact fun heq => absurd (show b = nr from heq) (by simpa [Action.renews] using hno)
      next => exact id
  | exit b =>
      rintro rfl
      rw [Sys.exec_exit hexec] at hlive'
      cases hlive'
  | put b page z => exact hfault b _ id
  | getEmptyPage b z => exact hfault b _ id
  | tryToShare b p z => exact hfault b _ id
  | doNoPage b iCount content z => exact hfault b _ id
  | doWpPage b z => exact hfault b _ id
  | writeVerify b z => exact hfault b _ id
  | allocate => exact id
  | free page => exact id
  | fill page content => exact id
  | release b => exact id
  | shmget b key size => exact id
  | shmat b shmid => exact id

end Tasks

/-! ## Runs -/

/-- The effects of the actions of a run. -/
def Sys.effects : List Action → Sys → List (Effect ℕ ℕ UInt8)
  | [], _ => []
  | a :: as, s =>
      match s.exec a with
      | .error _ => []
      | .ok s' => a.effect s s' :: Sys.effects as s'

section Runs

variable {bounds : Bounds} {lost : List ℕ} {start high : ℕ} {as bs : List Action} {s s₁ s' : Sys}
variable {nr child x : ℕ} {t : Task} {pid : ℤ} {v : UInt8}

theorem Sys.Inv.run_chain (h : s.Inv bounds lost) (has : ∀ a ∈ as, a.isShmget = false)
    (hrun : Sys.run as s = .ok s') : Effects s.view (Sys.effects as s) s'.view := by
  induction as generalizing s with
  | nil =>
      cases hrun
      exact .nil
  | cons a as ih =>
      obtain ⟨s₁, hexec, hrest⟩ := bind_eq_ok hrun
      obtain ⟨s₂, hexec₂, h₁⟩ := h.exec (has a List.mem_cons_self)
      cases hexec.symm.trans hexec₂
      rw [Sys.effects, hexec]
      exact .cons (h.exec_effect (has a List.mem_cons_self) hexec)
        (ih h₁ (fun b hb => has b (List.mem_cons_of_mem a hb)) hrest)

/-- Refinement: a run without `sys_shmget` is a run of the machine of private
memories, which starts with all of them empty. -/
theorem private_memories (hstart : LOW_MEM ≤ start) (has : ∀ a ∈ as, a.isShmget = false) :
    ∃ s, Sys.run as (.boot start high) = .ok s ∧
      Effects (fun _ _ => none) (Sys.effects as (.boot start high)) s.view := by
  have hboot := @Sys.inv_boot start high hstart
  obtain ⟨s, hrun, -⟩ := hboot.run has
  refine ⟨s, hrun, ?_⟩
  have hempty : (Sys.boot start high).view = fun _ _ => none := by
    funext b
    refine Sys.view_of_dead ?_
    by_cases hb : b = 0
    · subst hb
      rfl
    · rw [Sys.live, show (Sys.boot start high).task b = none from if_neg hb, Option.bind_none]
  rw [← hempty]
  exact hboot.run_chain has hrun

/-- The writes of a task that goes on, in the effects and in the actions. -/
theorem Sys.lastWritten_effects (hbs : ∀ b ∈ bs, b.isShmget = false)
    (hno : ∀ b ∈ bs, b.renews nr = false) (hrun : Sys.run bs s = .ok s')
    (hlive : s'.live nr = some t) (hx : x < t.dataLimit) (r : Option UInt8) :
    lastWritten nr x (Sys.effects bs s) r = bs.foldl (Action.written nr x) r ∧
      ∀ e ∈ Sys.effects bs s, ¬e.renews nr := by
  induction bs generalizing s r with
  | nil => exact ⟨rfl, fun e he => by cases he⟩
  | cons a bs ih =>
      obtain ⟨s₁, hexec, hrest⟩ := bind_eq_ok hrun
      have hbs' := fun b hb => hbs b (List.mem_cons_of_mem a hb)
      have hno' := fun b hb => hno b (List.mem_cons_of_mem a hb)
      have hlive₀ := Sys.run_live hbs hno hrun hlive
      have hlive₁ := Sys.run_live hbs' hno' hrest hlive
      obtain ⟨hlast, hrenews⟩ := ih hbs' hno' hrest ((a.effect s s₁).written nr x r)
      rw [Sys.effects, hexec]
      refine ⟨?_, fun e he => ?_⟩
      · rw [lastWritten, List.foldl_cons, List.foldl_cons,
          ← Action.effect_written hlive₀ hlive₁ hx]
        exact hlast
      · rcases List.mem_cons.1 he with rfl | he
        · exact Action.not_effect_renews (hno a List.mem_cons_self) hexec hlive₁
        · exact hrenews e he

theorem Sys.Inv.reads_kept (h : s.Inv bounds lost) (hbs : ∀ b ∈ bs, b.isShmget = false)
    (hno : ∀ b ∈ bs, b.renews nr = false) (hrun : Sys.run bs s = .ok s')
    (hlive : s'.live nr = some t) (hx : x < t.dataLimit)
    (hv : bs.foldl (Action.written nr x) (s.view nr x) = some v) : s'.view nr x = some v := by
  obtain ⟨hlast, hrenews⟩ := Sys.lastWritten_effects hbs hno hrun hlive hx (s.view nr x)
  exact (h.run_chain hbs hrun).kept hrenews (hlast.trans hv)

theorem private_memories_forks : ∃ s,
    Sys.run [.fork 0 1 1, .execve 1 8192 4096 7, .write 1 1 (fun _ => 3) 5000 9, .fork 1 2 2,
      .write 2 2 (fun _ => 3) 5000 8, .exit 1] (.boot 1024 4096) = .ok s ∧
      Effects (fun _ _ => none) (Sys.effects [.fork 0 1 1, .execve 1 8192 4096 7,
        .write 1 1 (fun _ => 3) 5000 9, .fork 1 2 2, .write 2 2 (fun _ => 3) 5000 8, .exit 1]
          (.boot 1024 4096)) s.view :=
  private_memories (by decide) (by simp [Action.isShmget])

/-- Whatever the others do, a task that goes on reads at each address what it
wrote there last, or what it read there before. -/
theorem reads_own_writes (hstart : LOW_MEM ≤ start) (has : ∀ a ∈ as, a.isShmget = false)
    (hbs : ∀ b ∈ bs, b.isShmget = false) (hrun : Sys.run as (.boot start high) = .ok s)
    (hrun' : Sys.run bs s = .ok s') (hlive : s'.live nr = some t)
    (hno : ∀ b ∈ bs, b.renews nr = false) (hx : x < t.dataLimit)
    (hv : bs.foldl (Action.written nr x) (s.view nr x) = some v) : s'.view nr x = some v := by
  obtain ⟨s₀, hrun₀, h⟩ := (@Sys.inv_boot start high hstart).run has
  cases hrun.symm.trans hrun₀
  exact h.reads_kept hbs hno hrun' hlive hx hv

theorem reads_own_writes_fork : ∃ s s', Sys.run [.fork 0 1 1] (.boot 1024 4096) = .ok s ∧
    Sys.run [.write 1 1 (fun _ => 3) 5000 9, .fork 1 2 2] s = .ok s' ∧
      s'.view 1 5000 = some 9 := by
  obtain ⟨s, hrun, h⟩ := @Sys.Inv.run ⟨1024, 4096⟩ [.fork 0 1 1] [] _ (Sys.inv_boot (by decide))
    (by simp [Action.isShmget])
  obtain ⟨s', hrun', -⟩ := @Sys.Inv.run _ [.write 1 1 (fun _ => 3) 5000 9, .fork 1 2 2] [] s h
    (by simp [Action.isShmget])
  have hlimit : ((Sys.run [.fork 0 1 1] (.boot 1024 4096) >>= Sys.run
      [.write 1 1 (fun _ => 3) 5000 9, .fork 1 2 2]).toOption.bind fun s =>
        (s.live 1).map Task.dataLimit) = some 0xA0000 := by decide +kernel
  rw [hrun, show (Except.ok s >>= Sys.run _) = Sys.run _ s from rfl, hrun'] at hlimit
  obtain ⟨t, hlive, ht⟩ := Option.map_eq_some_iff.1 hlimit
  exact ⟨s, s', hrun, hrun', reads_own_writes (by decide) (by simp [Action.isShmget])
    (by simp [Action.isShmget]) hrun hrun' hlive (by simp [Action.renews]) (by omega) rfl⟩

/-- After `fork` the child reads at each address what it wrote there last, or
what the parent read there at the moment of the call. -/
theorem fork_snapshot (hstart : LOW_MEM ≤ start) (has : ∀ a ∈ as, a.isShmget = false)
    (hbs : ∀ b ∈ bs, b.isShmget = false) (hrun : Sys.run as (.boot start high) = .ok s)
    (hnew : s.task child = none) (hfork : s.exec (.fork nr child pid) = .ok s₁)
    (hrun' : Sys.run bs s₁ = .ok s') (hlive : s'.live child = some t)
    (hno : ∀ b ∈ bs, b.renews child = false) (hx : x < t.dataLimit)
    (hv : bs.foldl (Action.written child x) (s.view nr x) = some v) : s'.view child x = some v := by
  obtain ⟨s₀, hrun₀, h⟩ := (@Sys.inv_boot start high hstart).run has
  cases hrun.symm.trans hrun₀
  obtain ⟨s₂, hfork₂, h₁⟩ := h.exec (a := .fork nr child pid) rfl
  cases hfork.symm.trans hfork₂
  have hchild := (Sys.live_eq_some.1 (Sys.run_live hbs hno hrun' hlive)).1
  have hstep := h.exec_effect rfl hfork
  rw [Action.effect, if_pos (by simp [hnew, hchild])] at hstep
  have hview : s₁.view child x = s.view nr x := by
    rw [show s₁.view = _ from hstep, Function.update_self]
  exact h₁.reads_kept hbs hno hrun' hlive hx (hview ▸ hv)

theorem fork_snapshot_at_once : ∃ s s₁,
    Sys.run [.fork 0 1 1, .write 1 1 (fun _ => 3) 5000 9] (.boot 1024 4096) = .ok s ∧
    s.exec (.fork 1 2 2) = .ok s₁ ∧ s₁.view 2 5000 = some 9 := by
  obtain ⟨s, hrun, h⟩ := @Sys.Inv.run ⟨1024, 4096⟩ [.fork 0 1 1, .write 1 1 (fun _ => 3) 5000 9] []
    _ (Sys.inv_boot (by decide)) (by simp [Action.isShmget])
  obtain ⟨s₁, hfork, -⟩ := h.exec (a := .fork 1 2 2) rfl
  have hbefore : ((Sys.run [.fork 0 1 1, .write 1 1 (fun _ => 3) 5000 9] (.boot 1024 4096)).toOption.map
      fun s => ((s.live 1).map Task.dataLimit, (s.task 2).isNone)) = some (some 0xA0000, true) := by
    decide +kernel
  have hafter : ((Sys.run [.fork 0 1 1, .write 1 1 (fun _ => 3) 5000 9] (.boot 1024 4096) >>=
      fun s => s.exec (.fork 1 2 2)).toOption.bind fun s => (s.live 2).map Task.dataLimit) =
        some 0xA0000 := by decide +kernel
  rw [hrun] at hbefore hafter
  rw [show (Except.ok s >>= fun s => s.exec (.fork 1 2 2)) = s.exec (.fork 1 2 2) from rfl, hfork]
    at hafter
  obtain ⟨t, hlive, ht⟩ := Option.map_eq_some_iff.1 hafter
  obtain ⟨hparent, hnew⟩ := Prod.mk.inj (Option.some.inj hbefore)
  obtain ⟨t₁, hlive₁, ht₁⟩ := Option.map_eq_some_iff.1 hparent
  obtain ⟨s₀, hexec, hrest⟩ := bind_eq_ok hrun
  obtain ⟨s₂, hexec₂, h₀⟩ := (@Sys.inv_boot 1024 4096 (by decide)).exec (a := .fork 0 1 1) rfl
  cases hexec.symm.trans hexec₂
  have hview : s.view 1 5000 = some 9 := h₀.reads_kept (by simp [Action.isShmget])
    (by simp [Action.renews]) hrest hlive₁ (by omega) rfl
  have hnil : Sys.run [] s₁ = .ok s₁ := rfl
  exact ⟨s, s₁, hrun, hfork, fork_snapshot (by decide) (by simp [Action.isShmget])
    (fun b hb => by cases hb) hrun (Option.isNone_iff_eq_none.1 hnew) hfork hnil hlive
    (fun b hb => by cases hb) (by omega) hview⟩

end Runs

end MyJavaExample.Mm
