import RaxzusHeap.AddressSpaces

/-! # Access rights of mapped pages

The MMU grants what both the directory entry and the table entry grant.  `map_page` writes
the table entry on every call and the directory entry only when it adds a table, so the
first call in a region of 4 MB decides what any later call there can grant.

* `MapRun`: any sequence of calls on one directory.
* `MapRun.tableFlags`, `MapRun.entry`: after a run the directory entry of a region holds the flags
  it was opened with, and the table entry of a page those of the last call for the page.
* `rights_as_requested_iff`: the last flags are in force exactly where the region allows
  them. -/

namespace RaxzusHeap

open Imperative Bits

/-- The user and write bits of an entry. -/
def rightsMask : ℕ := 0x6

/-- The rights the MMU grants at `va`: the directory entry and the table entry combined. -/
def State.rights (s : State) (d va : ℕ) : Option ℕ :=
  (s.walk d va).map fun e => (s.mem d (va / 2 ^ 22)).toNat &&& e &&& rightsMask

/-- The flags in entry `i` of the directory in frame `d`, where it is present. -/
def State.tableFlags (s : State) (d i : ℕ) : Option ℕ :=
  (s.pde d i).map fun _ => (s.mem d i).toNat % 4096

/-- A page, a frame and flags that `map_page` may be given. -/
structure MapCall where
  page : ℕ
  frame : ℕ
  flags : ℕ
  below : page < 0xC0000
  physical : frame < 0xC0000
  named : flags = PAGE_KERNEL ∨ flags = PAGE_USER ∨ flags = PAGE_READONLY

/-- Calls of `map_page` on the directory in frame `d`, the last one first, from `s`; each finds
a frame if it needs a table. -/
inductive MapRun (L : Layout) (d : ℕ) (s : State) : List MapCall → State → Prop
  | nil : MapRun L d s [] s
  | call {calls s₁ s₂} (run : MapRun L d s calls s₁) (c : MapCall)
      (room : (s₁.pde d (c.page / 1024)).isSome ∨ (d = L.dirFrame ∧ c.page / 1024 = 0) ∨
        ∃ g < 0x40000, s₁.allocated g = false)
      (hr : L.mapPage (KERNEL_BASE + d * 4096) (c.page * 4096) (c.frame * 4096) c.flags s₁ =
        .ok () s₂) : MapRun L d s (c :: calls) s₂

/-- The flags of the last call for page `p`. -/
def lastFlags (p : ℕ) : List MapCall → Option ℕ
  | [] => none
  | c :: calls => if c.page = p then some c.flags else lastFlags p calls

/-- The flags region `i` was opened with: those it had before the run, or those of the first
call for one of its pages. -/
def openingFlags (s : State) (d i : ℕ) : List MapCall → Option ℕ
  | [] => s.tableFlags d i
  | c :: calls => (openingFlags s d i calls).or (if c.page / 1024 = i then some c.flags else none)

/-- A region opened with flags `F` grants everything that the flags `fl` ask for. -/
def Allows (F fl : ℕ) : Prop := F &&& fl &&& rightsMask = fl &&& rightsMask

instance (F fl : ℕ) : Decidable (Allows F fl) := inferInstanceAs (Decidable (_ = _))

/-! ### Flags of entries -/

theorem and_rightsMask (n : ℕ) : n &&& rightsMask = n % 4096 &&& rightsMask := by
  have hlow : n &&& 4095 = n % 4096 := and_low_eq n 12
  have hmask : 4095 &&& rightsMask = rightsMask := by decide
  rw [← hlow, Nat.and_assoc, hmask]

theorem entries_rights (w e : ℕ) :
    w &&& e &&& rightsMask = w % 4096 &&& (e % 4096) &&& rightsMask := by
  rw [and_rightsMask, Nat.and_mod_two_pow (n := 12)]

theorem MapCall.flags_bounds (c : MapCall) : c.flags < 4096 ∧ c.flags % 2 = 1 := by
  rcases c.named with h | h | h <;> rw [h] <;> decide

theorem State.tableFlags_congr {s s' : State} {d i : ℕ} (h : s'.mem d i = s.mem d i) :
    s'.tableFlags d i = s.tableFlags d i := by
  rw [State.tableFlags, State.tableFlags, State.pde_congr h, h]

/-! ### One call -/

section Call

variable {L : Layout} {dirs : Set ℕ} {s s₁ : State} {d i fl t : ℕ}

/-- A region that has a table keeps its flags, another one is opened with those of the call. -/
theorem Supplied.tableFlags (h : Supplied L dirs s d i fl t s₁) (hfl : fl < 4096)
    (hodd : fl % 2 = 1) (j : ℕ) :
    s₁.tableFlags d j = (s.tableFlags d j).or (if i = j then some fl else none) := by
  cases h with
  | present ht hs =>
      subst hs
      by_cases hij : i = j
      · subst hij
        simp [State.tableFlags, ht]
      · simp [hij]
  | added hnone hlow hdir hnew hspare hmem hmark hkept =>
      by_cases hij : i = j
      · subst hij
        have hword : (s₁.mem d i).toNat = t * 4096 + fl := by
          rw [hmem]
          exact State.toNat_write s (by omega)
        have hpde : s₁.pde d i = some t := by
          rw [State.pde_eq_some_iff, hword]
          omega
        have hflags : (t * 4096 + fl) % 4096 = fl := by omega
        simp [State.tableFlags, hnone, hpde, hword, hflags]
      · have hsame : s₁.mem d j = s.mem d j := by
          rw [hmem, State.mem_write, if_neg]
          rintro ⟨-, rfl⟩
          exact hij rfl
        rw [State.tableFlags_congr hsame, if_neg hij, Option.or_none]

end Call

/-! ### Runs -/

section Runs

variable {L : Layout} {dirs : Set ℕ} {s s' : State} {d : ℕ} {calls : List MapCall}

theorem MapRun.owned (run : MapRun L d s calls s') (h : TablesOwned L dirs s) (hd : d ∈ dirs) :
    TablesOwned L dirs s' := by
  induction run with
  | nil => exact h
  | call run c room hr ih =>
      obtain ⟨hfl, hodd⟩ := c.flags_bounds
      obtain ⟨_, _, _, hrun, -, -, -, -, howned⟩ :=
        ih.mapPage_step hd c.below c.physical hfl hodd room
      rw [hrun] at hr
      cases hr
      exact howned

theorem MapRun.tableFlags (run : MapRun L d s calls s') (h : TablesOwned L dirs s) (hd : d ∈ dirs)
    (i : ℕ) : s'.tableFlags d i = openingFlags s d i calls := by
  induction run with
  | nil => rfl
  | call run c room hr ih =>
      obtain ⟨hfl, hodd⟩ := c.flags_bounds
      obtain ⟨_, _, _, hrun, hsup, hmem, -, -, -⟩ :=
        (run.owned h hd).mapPage_step hd c.below c.physical hfl hodd room
      rw [hrun] at hr
      cases hr
      rw [State.tableFlags_congr (congrFun hmem i), hsup.tableFlags hfl hodd, ih, openingFlags]

theorem MapRun.entry (run : MapRun L d s calls s') (h : TablesOwned L dirs s) (hd : d ∈ dirs)
    {p fl : ℕ} (hlast : lastFlags p calls = some fl) :
    p < 0xC0000 ∧ ∃ e, s'.walk d (p * 4096) = some e ∧ e % 4096 = fl := by
  induction run with
  | nil => cases hlast
  | call run c room hr ih =>
      obtain ⟨hfl, hodd⟩ := c.flags_bounds
      obtain ⟨_, _, _, hrun, -, -, hwalk, hkept, -⟩ :=
        (run.owned h hd).mapPage_step hd c.below c.physical hfl hodd room
      rw [hrun] at hr
      cases hr
      rw [lastFlags] at hlast
      by_cases hp : c.page = p
      · subst hp
        rw [if_pos rfl] at hlast
        cases hlast
        exact ⟨c.below, _, hwalk, by omega⟩
      · rw [if_neg hp] at hlast
        obtain ⟨hlt, e, he, hflags⟩ := ih hlast
        exact ⟨hlt, e, hkept d hd p (by omega) e (fun h => hp h.2.symm) he, hflags⟩

/-- The rights of a page are what its last call asks for and its region was opened with. -/
theorem MapRun.rights (run : MapRun L d s calls s') (h : TablesOwned L dirs s) (hd : d ∈ dirs)
    {p fl : ℕ} (hlast : lastFlags p calls = some fl) :
    ∃ F, openingFlags s d (p / 1024) calls = some F ∧
      s'.rights d (p * 4096) = some (F &&& fl &&& rightsMask) := by
  obtain ⟨-, e, he, hflags⟩ := run.entry h hd hlast
  obtain ⟨t, hpde, -, -⟩ := State.entryAt_eq_some_iff.mp he
  have hregion : p * 4096 / 2 ^ 22 = p / 1024 := by omega
  refine ⟨(s'.mem d (p / 1024)).toNat % 4096, ?_, ?_⟩
  · rw [← run.tableFlags h hd, State.tableFlags, hpde]
    rfl
  · rw [State.rights, he, Option.map_some, hregion, entries_rights, hflags]

/-- The rights of every page are those last requested if and only if every region was opened
with flags that allow all the flags last requested in it. -/
theorem rights_as_requested_iff (h : TablesOwned L dirs s) (hd : d ∈ dirs)
    (run : MapRun L d s calls s') :
    (∀ p fl, lastFlags p calls = some fl → s'.rights d (p * 4096) = some (fl &&& rightsMask)) ↔
      ∀ p fl F, lastFlags p calls = some fl → openingFlags s d (p / 1024) calls = some F →
        Allows F fl := by
  constructor
  · intro hall p fl F hlast hF
    obtain ⟨F', hF', hrights⟩ := run.rights h hd hlast
    rw [hF] at hF'
    cases hF'
    rw [hall p fl hlast] at hrights
    exact (Option.some.inj hrights).symm
  · intro hall p fl hlast
    obtain ⟨F, hF, hrights⟩ := run.rights h hd hlast
    rw [hrights, hall p fl F hlast hF]

theorem MapRun.extend (run : MapRun L d s calls s') (h : TablesOwned L dirs s) (hd : d ∈ dirs)
    (c : MapCall) (room : (s'.pde d (c.page / 1024)).isSome ∨
      (d = L.dirFrame ∧ c.page / 1024 = 0) ∨ ∃ g < 0x40000, s'.allocated g = false) :
    ∃ s'', MapRun L d s (c :: calls) s'' := by
  obtain ⟨hfl, hodd⟩ := c.flags_bounds
  obtain ⟨_, _, s'', hrun, -⟩ :=
    (run.owned h hd).mapPage_step hd c.below c.physical hfl hodd room
  exact ⟨s'', .call run c room hrun⟩

end Runs

/-! ### A kernel page and a user page in one region -/

/-- The first page of entry 64, for the kernel. -/
def kernelCall : MapCall := ⟨0x10000, 9000, PAGE_KERNEL, by decide, by decide, .inl rfl⟩

/-- The page behind it, for user programs. -/
def userCall : MapCall := ⟨0x10001, 9001, PAGE_USER, by decide, by decide, .inr (.inl rfl)⟩

/-- The two calls run, in both orders, on the kernel directory as `init_paging` leaves it. -/
theorem exists_mapRuns : ∃ s dirs, TablesOwned Layout.lowest dirs s ∧ 256 ∈ dirs ∧
    s.tableFlags 256 64 = none ∧ ∀ c c' : MapCall, c.page / 1024 = 64 → c'.page / 1024 = 64 →
      ∃ s', MapRun Layout.lowest 256 s [c', c] s' := by
  obtain ⟨_, s, _, _, hboot, -⟩ := Booting.start Layout.lowest fun _ _ => 0
  have howned := hboot.heap.inv.tablesOwned
  have hkernel : 256 ∈ {d | Layout.lowest.IsDir Layout.lowest.imageUse d} := howned.kernel
  have hnone : s.pde 256 64 = none := by
    cases hpde : s.pde 256 64 with
    | none => rfl
    | some t =>
        have ht := (hboot.heap.inv.pde 256 64 (Or.inl rfl) (by norm_num) t).mp hpde
        rcases Layout.lowest.imageUse_cases t with ⟨hu, _⟩ | ⟨hu, _⟩ <;> rw [hu] at ht <;> cases ht
  have hclear : s.allocated 7000 = false := by
    rw [hboot.used 7000 (by norm_num), decide_eq_false_iff_not]
    norm_num [Layout.kernelFrames, Layout.lowest]
  have hempty : s.tableFlags 256 64 = none := by
    rw [State.tableFlags, hnone]
    rfl
  refine ⟨s, _, howned, hkernel, hempty, fun c c' hc hc' => ?_⟩
  obtain ⟨s₁, run₁⟩ := MapRun.nil.extend howned hkernel c (.inr (.inr ⟨7000, by norm_num, hclear⟩))
  have hopen : (s₁.pde 256 (c'.page / 1024)).isSome := by
    have hflags := run₁.tableFlags howned hkernel 64
    rw [openingFlags, openingFlags, hempty, if_pos hc] at hflags
    rw [hc']
    cases hpde : s₁.pde 256 64 with
    | none =>
        rw [State.tableFlags, hpde] at hflags
        cases hflags
    | some t => rfl
  exact run₁.extend howned hkernel c' (.inl hopen)

/-- The user page first: both pages have the rights requested. -/
theorem rights_as_requested_user_first : ∃ s s', MapRun Layout.lowest 256 s [kernelCall, userCall] s' ∧
    s'.rights 256 (userCall.page * 4096) = some (PAGE_USER &&& rightsMask) := by
  obtain ⟨s, dirs, howned, hd, hnone, hruns⟩ := exists_mapRuns
  obtain ⟨s', run⟩ := hruns userCall kernelCall (by decide) (by decide)
  refine ⟨s, s', run, (rights_as_requested_iff howned hd run).mpr ?_ _ _ rfl⟩
  intro p fl F hlast hF
  have hflags : openingFlags s 256 64 [kernelCall, userCall] = some PAGE_USER := by
    rw [openingFlags, openingFlags, openingFlags, hnone]
    rfl
  simp only [lastFlags] at hlast
  split_ifs at hlast with h1 h2
  · obtain rfl : kernelCall.page = p := h1
    rw [show kernelCall.page / 1024 = 64 by decide, hflags] at hF
    cases hF
    cases hlast
    decide
  · obtain rfl : userCall.page = p := h2
    rw [show userCall.page / 1024 = 64 by decide, hflags] at hF
    cases hF
    cases hlast
    decide

/-- The kernel page first: the page mapped with `PAGE_USER` is not for user programs. -/
theorem user_page_denied : ∃ s dirs s', TablesOwned Layout.lowest dirs s ∧ 256 ∈ dirs ∧
    MapRun Layout.lowest 256 s [userCall, kernelCall] s' ∧
    lastFlags userCall.page [userCall, kernelCall] = some PAGE_USER ∧
    s'.rights 256 (userCall.page * 4096) = some 2 ∧ PAGE_USER &&& rightsMask = 6 := by
  obtain ⟨s, dirs, howned, hd, hnone, hruns⟩ := exists_mapRuns
  obtain ⟨s', run⟩ := hruns kernelCall userCall (by decide) (by decide)
  have hlast : lastFlags userCall.page [userCall, kernelCall] = some PAGE_USER := rfl
  obtain ⟨F, hF, hrights⟩ := run.rights howned hd hlast
  refine ⟨s, dirs, s', howned, hd, run, hlast, ?_, by decide⟩
  rw [show userCall.page / 1024 = 64 by decide, openingFlags, openingFlags, openingFlags, hnone]
    at hF
  cases hF
  exact hrights

end RaxzusHeap
