import HashLine.Proofs.Directives
import HashLine.Proofs.Strictness

/-! The warnings of a scan: one for each stray backslash of a region, in its place among the
directives, and at the very end one for a region that nothing ends. -/

namespace HashLine

namespace Scan

/-- What a directive and a stray backslash say about where they come: the backslash after every
directive that ends before it, and before every other. -/
def InOrder (x y : Delivery) : Prop :=
  (∀ d w, x = .directive d → y = .warning (.stray w) → d.span.stop ≤ w.span.start) ∧
    ∀ w d, x = .warning (.stray w) → y = .directive d → w.span.start < d.span.stop

/-- In the list `xs` the delivery `x` comes before `y`, and nowhere after it. -/
def Precedes (xs : List Delivery) (x y : Delivery) : Prop :=
  [x, y].Sublist xs ∧ ¬ [y, x].Sublist xs

def Delivered (k : Nat) : Delivery → Prop
  | .directive d => d.span.stop = k + 1
  | .warning (.stray w) => w.span.start = k
  | .warning (.unterminated ..) => False

theorem pair_sublist_of_mem {xs : List Delivery} {x y : Delivery} (hx : x ∈ xs) (hy : y ∈ xs)
    (hne : x ≠ y) : [x, y].Sublist xs ∨ [y, x].Sublist xs := by
  obtain ⟨before, after, rfl⟩ := List.append_of_mem hx
  rcases List.mem_append.mp hy with hy | hy
  · right
    exact (List.singleton_sublist.mpr hy).append (List.singleton_sublist.mpr List.mem_cons_self)
  · left
    have hafter : y ∈ after := (List.mem_cons.mp hy).resolve_left hne.symm
    exact (((List.singleton_sublist.mpr hafter).cons_cons x).trans (List.sublist_append_right _ _))

theorem precedes_of_inOrder {xs : List Delivery} (h : xs.Pairwise InOrder) {d : Directive}
    {w : StrayBackslash} (hd : .directive d ∈ xs) (hw : .warning (.stray w) ∈ xs) :
    (d.span.stop ≤ w.span.start → Precedes xs (.directive d) (.warning (.stray w))) ∧
      (w.span.start < d.span.stop → Precedes xs (.warning (.stray w)) (.directive d)) := by
  have hpair {x y : Delivery} (hxy : [x, y].Sublist xs) : InOrder x y :=
    List.pairwise_iff_forall_sublist.mp h hxy
  have hone := pair_sublist_of_mem hd hw (by simp)
  constructor
  · intro hle
    have hnot : ¬ [.warning (.stray w), .directive d].Sublist xs := by
      intro hwd
      have hlt := (hpair hwd).2 w d rfl rfl
      omega
    exact ⟨hone.resolve_right hnot, hnot⟩
  · intro hlt
    have hnot : ¬ [.directive d, .warning (.stray w)].Sublist xs := by
      intro hdw
      have hle := (hpair hdw).1 d w rfl rfl
      omega
    exact ⟨hone.resolve_left hnot, hnot⟩

section

variable {options : Options} {s : Bytes}

theorem delivered_of_mem {k : Nat} {x : Delivery} (hx : x ∈ deliveriesAt options s k) :
    Delivered k x := by
  rcases mem_deliveriesAt hx with rfl | ⟨i, rfl⟩ <;> rfl

theorem length_deliveriesAt_le (options : Options) (s : Bytes) (k : Nat) :
    (deliveriesAt options s k).length ≤ 1 := by
  simp only [deliveriesAt]
  split
  · simp
  · unfold deliveriesIn
    split
    · split <;> simp
    · split <;> simp

theorem Delivered.inOrder {k l : Nat} {x y : Delivery} (hx : Delivered k x) (hy : Delivered l y)
    (hkl : k < l) : InOrder x y := by
  constructor
  · rintro d w rfl rfl
    simp only [Delivered] at hx hy
    omega
  · rintro w d rfl rfl
    simp only [Delivered] at hx hy
    omega

theorem inOrder_deliveriesAt :
    ((List.range s.length).flatMap (deliveriesAt options s)).Pairwise InOrder := by
  rw [List.pairwise_flatMap]
  constructor
  · exact fun k _ => pairwise_of_length_le_one (length_deliveriesAt_le options s k)
  · refine List.pairwise_lt_range.imp ?_
    intro k l hkl x hx y hy
    exact (delivered_of_mem hx).inOrder (delivered_of_mem hy) hkl

theorem inOrder_calls :
    ((List.range s.length).flatMap (deliveriesAt options s) ++ closing options s).Pairwise
      InOrder := by
  refine List.pairwise_append.mpr ⟨inOrder_deliveriesAt, ?_, ?_⟩
  · refine List.pairwise_of_forall_mem_list ?_
    intro x hx y hy
    constructor
    · rintro d w rfl rfl
      simpa using mem_closing hy
    · rintro w d rfl rfl
      simpa using mem_closing hx
  · intro x hx y hy
    obtain ⟨k, hk, hx⟩ := List.mem_flatMap.mp hx
    have hk := List.mem_range.mp hk
    have hx := delivered_of_mem hx
    constructor
    · rintro d w rfl rfl
      simpa using mem_closing hy
    · rintro w d rfl rfl
      obtain ⟨i, rfl⟩ : ∃ i, d = directiveOf s i s.length false := by simpa using mem_closing hy
      have hd : (directiveOf s i s.length false).span.stop = s.length := rfl
      simp only [Delivered] at hx
      omega

theorem strays_deliveriesAt (hw : options.continuations = .warn) (k : Nat) :
    (deliveriesAt options s k).filterMap Delivery.stray? =
      if StrayInside options.gateQuotes s k then [strayOf s k] else [] := by
  simp only [deliveriesAt]
  cases ho : openAt options.gateQuotes s k with
  | none => simp [StrayInside, ho]
  | some i =>
    have hin : StrayInside options.gateQuotes s k ↔ StrayAt s k := by
      simp [StrayInside, ho]
    dsimp only
    simp only [deliveriesIn]
    by_cases hs : StrayAt s k
    · rw [if_pos hs, if_pos hw, if_pos (hin.mpr hs)]
      rfl
    · rw [if_neg hs, if_neg fun h => hs (hin.mp h)]
      split <;> rfl

theorem strays_closing : (closing options s).filterMap Delivery.stray? = [] := by
  rw [List.filterMap_eq_nil_iff]
  intro y hy
  rcases mem_closing hy with ⟨line, span, rfl⟩ | ⟨i, rfl⟩ <;> rfl

theorem flatMap_ite_singleton {α : Type} (p : Nat → Prop) [DecidablePred p] (f : Nat → α)
    (xs : List Nat) :
    xs.flatMap (fun k => if p k then [f k] else []) = (xs.filter (p ·)).map f := by
  induction xs with
  | nil => rfl
  | cons x xs ih => by_cases hx : p x <;> simp [hx, ih]

theorem strays_scan_ofBytes (hw : options.continuations = .warn) :
    (scan options (.ofBytes s)).deliveries.filterMap Delivery.stray? =
      ((List.range s.length).filter (StrayInside options.gateQuotes s ·)).map (strayOf s) := by
  rw [deliveries_scan_ofBytes (by simp [hw]), List.filterMap_append, strays_closing,
    List.append_nil, List.filterMap_flatMap]
  simp only [strays_deliveriesAt hw]
  exact flatMap_ite_singleton _ _ _

end

/-- What comes last in a scan: the warning about a region that nothing ends, and its directive. -/
def Region.ending (onEnd : EndPolicy) (s : Bytes) (r : Region) : List Delivery :=
  match r.stop with
  | some _ => []
  | none =>
    .warning (.unterminated (1 + linefeedsBefore s r.start) ⟨r.start, s.length⟩) ::
      (r.directive? onEnd s).toList.map .directive

theorem closing_eq_ending {options : Options} {s : Bytes}
    (hl : s.count Byte.linefeed < Cursor.lastLine) :
    closing options s =
      (regions options.gateQuotes s).getLast?.elim [] (Region.ending options.onEnd s) := by
  simp only [closing]
  rw [openAt_length]
  rcases (regions options.gateQuotes s).getLast? with _ | ⟨i, _ | j⟩
  · rfl
  · have hf := Region.found?_eq_directive? hl options.onEnd ⟨i, none⟩
    simp only [Option.bind_some, Region.open?, Option.elim_some, Region.ending, ← hf]
    simp only [cutOff]
    rw [Cursor.lineOf_of_count_lt hl]
    cases he : options.onEnd <;> rfl
  · rfl

/-- The warnings of a scan that warns. A stray backslash is told of once, after the directives that
end before it and before all others; a region that nothing ends is told of last, just before its
directive. -/
theorem warnings_scan_eq_strays {options : Options} {s : Bytes}
    (hw : options.continuations = .warn) (hl : s.count Byte.linefeed < Cursor.lastLine) :
    let rs := regions options.gateQuotes s
    let calls := (scan options (.ofBytes s)).deliveries
    calls.filterMap Delivery.stray? =
        ((List.range s.length).filter fun k => (∃ r ∈ rs, r.Holds k) ∧ StrayAt s k).map
          (fun k => ⟨1 + linefeedsBefore s k, ⟨k, k + 1⟩, s[k + 1]?⟩) ∧
      (∀ d w, .directive d ∈ calls → .warning (.stray w) ∈ calls →
        (d.span.stop ≤ w.span.start → Precedes calls (.directive d) (.warning (.stray w))) ∧
          (w.span.start < d.span.stop → Precedes calls (.warning (.stray w)) (.directive d))) ∧
      ∃ body, calls = body ++ rs.getLast?.elim [] (Region.ending options.onEnd s) ∧
        ∀ line span, .warning (.unterminated line span) ∉ body := by
  intro rs calls
  have hcalls : calls = _ := deliveries_scan_ofBytes (by simp [hw]) s
  refine ⟨?_, ?_, ?_⟩
  · have hinside : ∀ k, StrayInside options.gateQuotes s k ↔
        (∃ r ∈ rs, r.Holds k) ∧ StrayAt s k :=
      fun k => and_congr_left fun _ => openAt_isSome_iff k
    have hstray : strayOf s = fun k => ⟨1 + linefeedsBefore s k, ⟨k, k + 1⟩, s[k + 1]?⟩ := by
      funext k
      simp only [strayOf, Cursor.lineOf_of_count_lt hl]
    refine (strays_scan_ofBytes hw).trans ?_
    simp only [hinside, hstray]
  · intro d w hd hw
    rw [hcalls] at hd hw ⊢
    exact precedes_of_inOrder inOrder_calls hd hw
  · refine ⟨_, by rw [hcalls, closing_eq_ending hl], ?_⟩
    intro line span hmem
    obtain ⟨k, -, hk⟩ := List.mem_flatMap.mp hmem
    exact delivered_of_mem hk

/-- A backslash before a tab, one in quotes, and one that ends the input. -/
theorem warnings_scan_tab_quoted_last :
    let calls := (scan ⟨.warn, .flush, false⟩ (.ofBytes (utf8 "#a\n#\\\t'\\ '\n#b\\"))).deliveries
    calls.filterMap Delivery.stray? = [⟨2, ⟨4, 5⟩, some Byte.tab⟩, ⟨3, ⟨13, 14⟩, none⟩] ∧
      Precedes calls (.directive ⟨1, 1, ⟨0, 3⟩, utf8 "a\n", true⟩)
        (.warning (.stray ⟨2, ⟨4, 5⟩, some Byte.tab⟩)) ∧
      ∃ body, calls = body ++ [.warning (.unterminated 3 ⟨11, 14⟩),
          .directive ⟨3, 3, ⟨11, 14⟩, utf8 "b\\", false⟩] ∧
        ∀ line span, .warning (.unterminated line span) ∉ body := by
  intro calls
  obtain ⟨hstrays, horder, body, hcalls, hbody⟩ :=
    @warnings_scan_eq_strays ⟨.warn, .flush, false⟩ (utf8 "#a\n#\\\t'\\ '\n#b\\") rfl
      (by decide +kernel)
  refine ⟨hstrays.trans (by decide +kernel), ?_, body, hcalls.trans ?_, hbody⟩
  · exact (horder _ _ (by decide +kernel) (by decide +kernel)).1 (by decide)
  · congr 1
    decide +kernel

end Scan

end HashLine
