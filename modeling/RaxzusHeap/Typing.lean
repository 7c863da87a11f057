import RaxzusHeap.Commands
import RaxzusHeap.Progress

/-! # Lines that go through

From a stocked heap the commands run to their end: a refused disk command (`Ready.diskR_ends`) and
`memtest 2` with both its buffers (`Ready.memtest2_line_ends`). -/

namespace RaxzusHeap

open Imperative Shell

/-- The heap is stocked, and its calls so far stayed within the limits of memory. -/
structure Ready (L : Layout) (c w k : ℕ) (t : ShellState) : Prop where
  stock : Stocked L c w k t.live t.machine
  calls : CallsWithin L t

namespace Ready

variable {L : Layout} {c w k i j l n N p : ℕ} {t : ShellState} {live : ℕ → Option ℕ}
  {line : List Byte} {input : ℕ} {disk : ℕ → BitVec 16}

theorem mono (h : Ready L c w k t) (hc : i ≤ c) (hw : j ≤ w) (hk : l ≤ k) : Ready L i j l t :=
  ⟨h.stock.mono hc hw hk, h.calls⟩

theorem emit (h : Ready L c w k t) (e : Event) :
    Ready L c w k { t with events := t.events ++ [e] } :=
  ⟨h.stock, h.calls⟩

theorem kmalloc (h : Ready L c w k t) (hn : n + 4099 < 2 ^ 32)
    (hN : (HeapOp.kmalloc n).pages = N) (hc : i + 1 ≤ c) (hw : j + N ≤ w)
    (hk : l + 3 + N * 3 ≤ k) :
    ∃ a s, L.kmalloc n t.machine = .ok a s ∧ t.live a = none ∧ Ready L i j l
      ⟨s, t.events, liveAfter t.live (.kmalloc n) a,
        t.calls ++ [⟨t.live, t.machine, .kmalloc n, a, s⟩]⟩ ∧
      liveAfter t.live (.kmalloc n) a = Function.update t.live a (some n) := by
  subst hN
  obtain ⟨a, s, hr, hG, -, h'⟩ := (h.stock.mono hc hw hk).call
    (show Legal t.live (.kmalloc n) from trivial) fun m hm => by
      simp only [HeapOp.large] at hm
      split_ifs at hm
      cases hm
      exact hn
  obtain ⟨ha, hfresh, -, -⟩ := h.stock.heap.kmalloc hr hG
  refine ⟨a, s, hr, hfresh, ⟨h', fun x hx => ?_⟩, if_neg ha⟩
  rcases List.mem_append.mp hx with hx | hx
  · exact h.calls x hx
  · rw [List.mem_singleton.mp hx]
    exact hG

theorem kmalloc_ends (h : Ready L c w k t) (hn : n + 4099 < 2 ^ 32)
    (hN : (HeapOp.kmalloc n).pages = N) (hc : i + 1 ≤ c) (hw : j + N ≤ w)
    (hk : l + 3 + N * 3 ≤ k) :
    Ends (Shell.kmalloc L n) t (fun a t' => Ready L i j l t' ∧ t.live a = none ∧
      t'.live = Function.update t.live a (some n)) fun _ => False := by
  obtain ⟨a, s, hr, hfresh, h', hlive⟩ := h.kmalloc hn hN hc hw hk
  exact .of_ok (kmalloc_ok hr) ⟨h', hfresh, hlive⟩

theorem kfree_ends (h : Ready L c w k t) (hp : t.live p ≠ none) (hc : i + 1 ≤ c) (hw : j ≤ w)
    (hk : l + 3 ≤ k) :
    Ends (Shell.kfree L p) t (fun _ t' => Ready L i j l t' ∧
      t'.live = Function.update t.live p none) fun _ => False := by
  obtain ⟨s, -, hr, hG, h'⟩ := (h.stock.mono hc hw hk).kfree hp
  refine .of_ok (run_bind_ok (call_ok hr)) ⟨⟨h', fun x hx => ?_⟩, rfl⟩
  rcases List.mem_append.mp hx with hx | hx
  · exact h.calls x hx
  · rw [List.mem_singleton.mp hx]
    exact hG

/-! ### The buffers of `memtest 2` -/

theorem storeByte_ends {i b : ℕ} (h : Ready L c w k t) (hp : t.live p = some n) (hi : i < n) :
    Ends (lift (L.storeByte (u32 (p + i)) b)) t (fun _ t' => Ready L c w k t' ∧ t'.live = t.live)
      fun _ => False := by
  obtain ⟨use, ranges, hh⟩ := h.stock.heap.heap
  obtain ⟨v, s, -, -, hr, h', hst⟩ := hh.write (b := b) hp (h.stock.heap.fit p n hp) hi
  have haddr : u32 (p + i) = p + i :=
    u32_of_lt (h.stock.heap.addr_lt hp (Nat.le_add_right p i) (by omega))
  rw [haddr]
  exact .of_ok (lift_ok hr) ⟨⟨h.stock.same ⟨use, ranges, h'⟩ hst.alloc hst.vars, h.calls⟩, rfl⟩

theorem loadByte_ends {i : ℕ} (h : Ready L c w k t) (hp : t.live p = some n) (hi : i < n) :
    Ends (lift (L.loadByte (u32 (p + i)))) t (fun _ t' => Ready L c w k t' ∧ t'.live = t.live)
      fun _ => False := by
  obtain ⟨use, ranges, hh⟩ := h.stock.heap.heap
  obtain ⟨v, -, hpeek, -⟩ := hh.pages.load (hh.backed_live hp (h.stock.heap.fit p n hp)
    (Nat.le_add_right p i) (by omega))
  have haddr : u32 (p + i) = p + i :=
    u32_of_lt (h.stock.heap.addr_lt hp (Nat.le_add_right p i) (by omega))
  have hbyte : L.byteAt t.machine (p + i) = some (byteOf v ((p + i) % 4)) := by
    rw [Layout.byteAt, hpeek, Option.map_some]
  rw [haddr]
  exact .of_ok (lift_ok (Layout.loadByte_of_byteAt hbyte)) ⟨⟨h.stock, h.calls⟩, rfl⟩

theorem patternBuffer_ends {pattern : ℕ → ℕ} {fail pass wrong : String} (h : Ready L c w k t)
    (hn : n + 4099 < 2 ^ 32) (hN : (HeapOp.kmalloc n).pages = N) (hc : i + 1 ≤ c)
    (hw : j + N ≤ w) (hk : l + 3 + N * 3 ≤ k) :
    Ends (L.patternBuffer n pattern fail pass wrong) t (fun a t' => Ready L i j l t' ∧
      t.live a = none ∧ t'.live = Function.update t.live a (some n)) fun _ => False := by
  refine (h.kmalloc_ends hn hN hc hw hk).bind fun a t₁ ⟨h₁, hfresh, hlive₁⟩ => ?_
  have hlast : ∀ {t₂ : ShellState} (m : String), Ready L i j l t₂ → t₂.live = t₁.live →
      Ends (do Shell.emit (.print m); pure a) t₂ (fun a t' => Ready L i j l t' ∧
        t.live a = none ∧ t'.live = Function.update t.live a (some n)) fun _ => False :=
    fun m h₂ hlive₂ => .of_ok rfl ⟨h₂.emit (.print m), hfresh, hlive₂.trans hlive₁⟩
  have ha : t₁.live a = some n := by rw [hlive₁, Function.update_self]
  dsimp only
  split_ifs with hzero
  · exact hlast fail h₁ rfl
  · refine (Ends.times (fun _ t₂ => Ready L i j l t₂ ∧ t₂.live = t₁.live) ⟨h₁, rfl⟩
      fun i t₂ hi ⟨h₂, hlive₂⟩ => (h₂.storeByte_ends (by rw [hlive₂, ha]) hi).mono
        (fun _ t₃ h₃ => ⟨h₃.1, h₃.2.trans hlive₂⟩) fun _ hE => hE).bind fun _ t₂ ⟨h₂, hlive₂⟩ => ?_
    refine (Ends.iterate (fun _ _ t₃ => Ready L i j l t₃ ∧ t₃.live = t₁.live) ⟨h₂, hlive₂⟩
      fun i bad t₃ hi ⟨h₃, hlive₃⟩ => (h₃.loadByte_ends (by rw [hlive₃, ha]) hi).bind
        fun b t₄ h₄ => .of_ok rfl ⟨h₄.1, h₄.2.trans hlive₃⟩).bind fun bad t₃ ⟨h₃, hlive₃⟩ => ?_
    split_ifs
    · exact hlast pass h₃ hlive₃
    · exact hlast wrong h₃ hlive₃

theorem compareBuffers_ends (h : Ready L c w k t) (buf64k buf1m : ℕ) :
    Ends (Layout.compareBuffers buf64k buf1m) t
      (fun _ t' => Ready L c w k t' ∧ t'.live = t.live) fun _ => False := by
  unfold Layout.compareBuffers
  split_ifs
  · exact .of_ok rfl ⟨h.emit _, rfl⟩
  · exact .of_ok rfl ⟨h.emit _, rfl⟩
  · exact .of_ok rfl ⟨h, rfl⟩

theorem update_fresh {f : ℕ → Option ℕ} {a : ℕ} (hf : f a = none) (n : ℕ) :
    Function.update (Function.update f a (some n)) a none = f := by
  rw [Function.update_idem, ← hf, Function.update_eq_self]

theorem largeTimings_ends {buf64k buf1m : ℕ} (h : Ready L (c + 9) (w + 266) (k + 900) t)
    (h64 : t.live buf64k ≠ none) (h1 : t.live buf1m ≠ none) (hne : buf64k ≠ buf1m) :
    Ends (L.largeTimings buf64k buf1m) t (fun _ t' => Ready L (c + 1) (w + 0) (k + 50) t' ∧
      t'.live = Function.update (Function.update t.live buf64k none) buf1m none)
      fun _ => False := by
  have hne64 : buf64k ≠ 0 := by
    obtain ⟨n, hn⟩ := Option.ne_none_iff_exists'.mp h64
    exact h.stock.heap.live_ne_zero hn
  have hne1 : buf1m ≠ 0 := by
    obtain ⟨n, hn⟩ := Option.ne_none_iff_exists'.mp h1
    exact h.stock.heap.live_ne_zero hn
  unfold Layout.largeTimings
  refine (h.kmalloc_ends (n := 4096) (N := 0) (i := c + 8) (j := w + 266) (l := k + 890)
    (by norm_num)
    (by decide) (by omega) (by omega) (by omega)).bind fun tbuf t₁ h₁ => ?_
  obtain ⟨h₁, hfresh₁, hlive₁⟩ := h₁
  refine (h₁.kmalloc_ends (n := 8 * 4096) (N := 9) (i := c + 7) (j := w + 257) (l := k + 850)
    (by omega)
    (by decide) (by omega) (by omega) (by omega)).bind fun tbuf8 t₂ h₂ => ?_
  obtain ⟨h₂, hfresh₂, hlive₂⟩ := h₂
  refine (h₂.kmalloc_ends (n := 1024 * 1024) (N := 257) (i := c + 6) (j := w + 0) (l := k + 70)
    (by omega) (by decide) (by omega) (by omega) (by omega)).bind fun tbig t₃ h₃ => ?_
  obtain ⟨h₃, hfresh₃, hlive₃⟩ := h₃
  refine (h₃.kfree_ends (p := tbig) (i := c + 5) (j := w + 0) (l := k + 66) ?_ (by omega)
    (by omega)
    (by omega)).bind fun _ t₄ h₄ => ?_
  · simp [hlive₃]
  obtain ⟨h₄, hlive₄⟩ := h₄
  rw [hlive₃, update_fresh hfresh₃] at hlive₄
  have hdiff : tbuf ≠ tbuf8 := by
    rintro rfl
    rw [hlive₁, Function.update_self] at hfresh₂
    cases hfresh₂
  refine (h₄.kfree_ends (p := tbuf) (i := c + 4) (j := w + 0) (l := k + 62) ?_ (by omega)
    (by omega)
    (by omega)).bind fun _ t₅ h₅ => ?_
  · simp [hlive₄, hlive₂, hlive₁, Function.update_of_ne hdiff]
  obtain ⟨h₅, hlive₅⟩ := h₅
  rw [hlive₄, hlive₂, hlive₁, Function.update_comm hdiff.symm, update_fresh hfresh₁] at hlive₅
  rw [hlive₁, Function.update_of_ne hdiff.symm] at hfresh₂
  refine (h₅.kfree_ends (p := tbuf8) (i := c + 3) (j := w + 0) (l := k + 58) ?_ (by omega)
    (by omega)
    (by omega)).bind fun _ t₆ h₆ => ?_
  · simp [hlive₅]
  obtain ⟨h₆, hlive₆⟩ := h₆
  rw [hlive₅, update_fresh hfresh₂] at hlive₆
  dsimp only
  rw [if_pos hne64]
  refine (h₆.kfree_ends (p := buf64k) (i := c + 2) (j := w + 0) (l := k + 54) ?_ (by omega)
    (by omega) (by omega)).bind fun _ t₇ h₇ => ?_
  · rwa [hlive₆]
  obtain ⟨h₇, hlive₇⟩ := h₇
  rw [hlive₆] at hlive₇
  rw [if_pos hne1, ← hlive₇]
  refine h₇.kfree_ends ?_ (by omega) (by omega) (by omega)
  rwa [hlive₇, Function.update_of_ne hne.symm]

/-- `memtest 2` runs to its end and gives back what it has taken. -/
theorem memtest2_ends (h : Ready L (c + 11) (w + 540) (k + 2000) t) :
    Ends L.cmdMemtestV2 t (fun _ t' => Ready L (c + 1) (w + 0) (k + 50) t' ∧ t'.live = t.live)
      fun _ => False := by
  unfold Layout.cmdMemtestV2
  refine (h.patternBuffer_ends (N := 17) (i := c + 10) (j := w + 523) (l := k + 1900) (by omega)
    (by decide)
    (by omega) (by omega) (by omega)).bind fun buf64k t₁ h₁ => ?_
  obtain ⟨h₁, hfresh₁, hlive₁⟩ := h₁
  refine (h₁.patternBuffer_ends (N := 257) (i := c + 9) (j := w + 266) (l := k + 900) (by omega)
    (by decide) (by omega) (by omega) (by omega)).bind fun buf1m t₂ h₂ => ?_
  obtain ⟨h₂, hfresh₂, hlive₂⟩ := h₂
  have hdiff : buf64k ≠ buf1m := by
    rintro rfl
    rw [hlive₁, Function.update_self] at hfresh₂
    cases hfresh₂
  refine (h₂.compareBuffers_ends buf64k buf1m).bind fun _ t₃ h₃ => ?_
  obtain ⟨h₃, hlive₃⟩ := h₃
  rw [hlive₁, Function.update_of_ne hdiff.symm] at hfresh₂
  refine (h₃.largeTimings_ends ?_ ?_ hdiff).mono (fun _ t' h' => ⟨h'.1, ?_⟩) fun _ hE => hE
  · simp [hlive₃, hlive₂, hlive₁, Function.update_of_ne hdiff]
  · simp [hlive₃, hlive₂]
  · rw [h'.2, hlive₃, hlive₂, hlive₁, Function.update_comm hdiff.symm, update_fresh hfresh₁,
      update_fresh hfresh₂]

/-! ### Lines -/

theorem tokinizeWords_ends (h : Ready L c w k t) (hwords : (lineWords line).length ≤ 50)
    (hin : input + line.length < 2 ^ 32) (hc : i + 1 ≤ c) (hk : l + 3 ≤ k) :
    Ends (L.tokinizeWords input line) t (fun r t' => Ready L i w l t' ∧
      Tokenized L line ⟨r.1, input, r.2.1, r.2.2⟩ t'.machine ∧ t.live r.1 = none ∧
      t'.live = Function.update t.live r.1 (some 200)) fun _ => False := by
  obtain ⟨a, s, hr, hfresh, h', hlive⟩ := h.kmalloc (n := 200) (N := 0) (j := w) (by norm_num)
    (by decide) hc le_rfl (by omega)
  obtain ⟨use, ranges, hh⟩ := h'.stock.heap.heap
  have ha : liveAfter t.live (.kmalloc 200) a a = some 200 := by rw [hlive, Function.update_self]
  obtain ⟨t', hrun, h₂, -, hlive', hcalls', hout, hwords'⟩ := L.tokinizeWords_spec hr hh ha
    (h'.stock.heap.live_aligned ha) (by norm_num) (by omega) hin
  refine .of_ok hrun ⟨⟨?_, ?_⟩, hwords', hfresh, hlive'.trans hlive⟩
  · rw [hlive']
    exact h'.stock.same ⟨use, ranges, h₂⟩ hout.alloc hout.vars
  · intro x hx
    rw [hcalls'] at hx
    exact h'.calls x hx

/-- A line whose command leaves the live blocks alone and releases `argv`. -/
theorem line_ends (h : Ready L (c + 1) w (k + 3) t) (fellThrough : Bool)
    (hwords : (lineWords line).length ≤ 50) (hin : input + line.length < 2 ^ 32)
    (hcmd : ∀ argv u, Ready L c w k u →
      Tokenized L line ⟨argv, input, blanked line false, (lineWords line).length⟩ u.machine →
      Ends (L.runCommand disk ⟨argv, input, blanked line false, (lineWords line).length⟩) u
        (fun b u' => b = fellThrough ∧ Ready L (i + 1) j (l + 3) u' ∧ u'.live = u.live)
        fun _ => False) :
    ∃ t', L.processInput disk input line t = .ok () t' ∧ Ready L i j l t' := by
  have hends : Ends (L.processInput disk input line) t (fun _ t' => Ready L i j l t')
      fun _ => False := by
    unfold Layout.processInput
    refine (h.tokinizeWords_ends hwords hin le_rfl le_rfl).bind fun r t₁ h₁ => ?_
    obtain ⟨argv, text, count⟩ := r
    obtain ⟨h₁, htok, -, hlive₁⟩ := h₁
    have htext : text = blanked line false := htok.text
    have hcount : count = (lineWords line).length := htok.count
    subst htext
    subst hcount
    refine (hcmd argv t₁ h₁ htok).bind fun b t₂ h₂ => ?_
    obtain ⟨rfl, h₂, hlive₂⟩ := h₂
    split_ifs
    · refine (h₂.kfree_ends ?_ le_rfl le_rfl le_rfl).mono (fun _ _ h' => h'.1) fun _ hE => hE
      simp [hlive₂, hlive₁]
    · exact .of_ok rfl (h₂.mono (Nat.le_add_right _ _) le_rfl (Nat.le_add_right _ _))
  obtain ⟨_, t', hr, h'⟩ := hends.exists_ok
  exact ⟨t', hr, h'⟩

theorem diskR_ends (h : Ready L (c + 2) w (k + 6) t) (disk : ℕ → BitVec 16)
    (hin : input + 5 < 2 ^ 32) :
    ∃ t', L.processInput disk input (cstr "diskR") t = .ok () t' ∧ Ready L c w k t' := by
  refine h.line_ends (c := c + 1) (k := k + 3) false (by decide) hin
    fun argv u hu hwords => ?_
  have hfirst : (lineWords (cstr "diskR"))[0]? = some (cstr "diskR") := by decide
  refine .of_ok (a := false) ?_ ⟨rfl, hu.emit
    (.print "\nThis commande requires 2 flag inputs (LBA, Segment)\n"), rfl⟩
  unfold Layout.runCommand
  rw [run_bind_ok (hwords.word hfirst)]
  rfl

theorem memtest2_line_ends (h : Ready L (c + 12) (w + 540) (k + 2100) t) (disk : ℕ → BitVec 16)
    (hin : input + 9 < 2 ^ 32) :
    ∃ t', L.processInput disk input (cstr "memtest 2") t = .ok () t' ∧ Ready L c w k t' := by
  refine h.line_ends (c := c + 11) (k := k + 2097) true (by decide) hin
    fun argv u hu hwords => ?_
  have h0 : (lineWords (cstr "memtest 2"))[0]? = some (cstr "memtest") := by decide
  have h1 : (lineWords (cstr "memtest 2"))[1]? = some (cstr "2") := by decide
  have hlen : ¬ (lineWords (cstr "memtest 2")).length < 2 := by decide
  unfold Layout.runCommand
  refine Ends.bind_ok (hwords.word h0) ?_
  simp only [checkString_eq, decide_eq_true_eq]
  rw [if_neg (by decide), if_neg (by decide), if_neg (by decide), if_pos trivial, if_neg hlen]
  refine Ends.bind_ok (hwords.word h1) ?_
  rw [if_neg (by decide), if_pos rfl]
  refine ((hu.mono (i := c + 11) (l := k + 2000) le_rfl le_rfl (by omega)).memtest2_ends).bind
    fun _ u' hu' =>
    .of_ok rfl ⟨rfl, hu'.1.mono (by omega) le_rfl (by omega), hu'.2⟩

end Ready

end RaxzusHeap
