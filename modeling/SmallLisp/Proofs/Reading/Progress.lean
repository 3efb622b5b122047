import SmallLisp.Reader

/-!
# Reading to the end

A form takes text from the source it is read from, and so does a fault, be it in the text or in its
arrival. So reading to the end of the input is a finite matter.
-/

namespace SmallLisp

/-- Whether a reading has come to the end of the input. -/
def Reading.isAtEnd (r : Reading) : Bool :=
  match r.result with
  | .ok .eof => true
  | _ => false

theorem Reading.isAtEnd_eq_false {r : Reading} (h : r.result ≠ .ok .eof) : r.isAtEnd = false := by
  unfold isAtEnd
  split
  · contradiction
  · rfl

namespace Scanner

/-- Asking for lines brings no more than they hold, and a failure costs one of them. -/
theorem remaining_fetch (answers : List Answer) {sc : Scanner} (src : LineSource)
    (hrest : sc.rest = []) :
    (sc.fetch src answers).2.1.remaining (sc.fetch src answers).2.2 ≤ totalWeight answers ∧
      ∀ f, (sc.fetch src answers).1 = .failed f →
        (sc.fetch src answers).2.1.remaining (sc.fetch src answers).2.2 < totalWeight answers := by
  induction answers generalizing sc src with
  | nil =>
      refine ⟨?_, by simp [fetch]⟩
      simp [fetch, remaining, LineSource.asked, totalWeight, hrest]
  | cons a answers ih =>
      cases a with
      | fault f =>
          simp only [fetch, remaining, LineSource.asked, totalWeight, weight, hrest,
            List.length_nil]
          exact ⟨by omega, fun _ _ => by omega⟩
      | line text =>
          simp only [fetch]
          split
          · refine ⟨?_, by simp⟩
            simp only [remaining, LineSource.asked, totalWeight, weight, take, List.length_append,
              List.length_singleton]
            omega
          · have hskipped : ((sc.take text).skipLine).rest = [] := rfl
            obtain ⟨hle, hlt⟩ := ih (src.asked sc.prompt answers) hskipped
            simp only [totalWeight]
            exact ⟨by omega, fun f hf => Nat.lt_of_lt_of_le (hlt f hf) (Nat.le_add_left _ _)⟩

theorem remaining_seek_le (sc : Scanner) (src : LineSource) :
    (sc.seek src).2.1.remaining (sc.seek src).2.2 ≤ sc.remaining src ∧
      ∀ f, (sc.seek src).1 = .failed f →
        (sc.seek src).2.1.remaining (sc.seek src).2.2 < sc.remaining src := by
  unfold seek
  split
  · exact ⟨Nat.le_refl _, by simp⟩
  · dsimp only
    split
    · refine ⟨?_, by simp⟩
      simp [remaining, skipLine]
    · have hskipped : sc.skipLine.rest = [] := rfl
      obtain ⟨hle, hlt⟩ := remaining_fetch src.answers src hskipped
      simp only [remaining] at hle hlt ⊢
      exact ⟨by omega, fun f hf => Nat.lt_of_lt_of_le (hlt f hf) (Nat.le_add_left _ _)⟩

/-- A token takes text, and so does a fault. -/
theorem remaining_next {sc sc' : Scanner} {src src' : LineSource}
    {x : Except Cause (Option Token)} (h : sc.next src = (x, sc', src')) :
    sc'.remaining src' ≤ sc.remaining src ∧
      (x ≠ .ok none → sc'.remaining src' < sc.remaining src) := by
  obtain ⟨hle, hlt⟩ := remaining_seek_le sc src
  unfold next at h
  rcases hseek : sc.seek src with ⟨⟨c, cs⟩ | _ | f, sc₁, src₁⟩
  · have hstart := remaining_seek sc src hseek
    have hscan := length_scan_le c cs
    have htaken : ∀ rest : List Char, rest.length ≤ cs.length →
        { sc₁ with rest }.remaining src₁ < sc.remaining src := by
      intro rest hrest
      simp only [remaining] at hstart ⊢
      omega
    rw [hseek] at h
    rcases hs : Token.scan c cs with ⟨_ | _, rest⟩ <;>
      · simp only [hs] at h hscan
        cases h
        exact ⟨Nat.le_of_lt (htaken rest hscan), fun _ => htaken rest hscan⟩
  · rw [hseek] at h hle
    cases h
    exact ⟨hle, fun hne => absurd rfl hne⟩
  · rw [hseek] at h hlt
    cases h
    exact ⟨Nat.le_of_lt (hlt f rfl), fun _ => hlt f rfl⟩

end Scanner

namespace Reader

open Scanner

/-- A form takes text, and so does a fault on the way to one. -/
theorem remaining_readForm {stack : List Pending} {sc sc' : Scanner} {src src' : LineSource}
    {x : Except Cause (Option Form)} (h : readForm stack sc src = (x, sc', src')) :
    sc'.remaining src' ≤ sc.remaining src ∧
      (stack = [] → x ≠ .ok none → sc'.remaining src' < sc.remaining src) := by
  fun_induction readForm stack sc src with
  | case1 stack sc src cause sc₁ src₁ hnext =>
      cases h
      obtain ⟨hle, hlt⟩ := remaining_next hnext
      exact ⟨hle, fun _ _ => hlt (by simp)⟩
  | case2 stack sc src sc₁ src₁ hnext hempty =>
      cases h
      exact ⟨(remaining_next hnext).1, fun _ hne => absurd rfl hne⟩
  | case3 stack sc src sc₁ src₁ hnext hopen =>
      cases h
      exact ⟨(remaining_next hnext).1, fun hnil _ => absurd (by rw [hnil]; rfl) hopen⟩
  | case4 stack sc src t sc₁ src₁ hnext f hfeed =>
      cases h
      obtain ⟨hle, hlt⟩ := remaining_next hnext
      exact ⟨hle, fun _ _ => hlt (by simp)⟩
  | case5 stack sc src t sc₁ src₁ hnext f hfeed =>
      cases h
      obtain ⟨hle, hlt⟩ := remaining_next hnext
      exact ⟨hle, fun _ _ => hlt (by simp)⟩
  | case6 stack sc src t sc₁ src₁ hnext stack' hfeed ih =>
      have hlt := (remaining_next hnext).2 (by simp)
      obtain ⟨hle, -⟩ := ih h
      exact ⟨by omega, fun _ _ => by omega⟩

theorem remaining_prepared_le (r : Reader) (src : LineSource) :
    r.prepared.remaining src ≤ r.scanner.remaining src := by
  unfold prepared
  split <;> simp [remaining, beginForm, skipLine]

/-- A reading that does not come to the end of the input takes text. -/
theorem remaining_read {r : Reader} {src : LineSource} {store : Store} {symbols : SymbolTable}
    (h : (r.read src store symbols).isAtEnd = false) :
    (r.read src store symbols).reader.scanner.remaining (r.read src store symbols).source <
      r.prepared.remaining src := by
  rcases hform : readForm [] r.prepared src with ⟨x, sc', src'⟩
  have hlt := (remaining_readForm hform).2 rfl
  revert h
  unfold read
  rw [hform]
  rcases x with c | _ | f
  · exact fun _ => hlt (by simp)
  · exact fun h => by cases h
  · dsimp only
    rcases f.lower store symbols with ⟨_ | _, store, symbols⟩ <;> exact fun _ => hlt (by simp)

/-- Read to the end of the input, each form into the memory that the reading before has left. -/
def readAll (r : Reader) (src : LineSource) (store : Store) (symbols : SymbolTable) :
    List Reading :=
  let reading := r.read src store symbols
  if _h : reading.isAtEnd = true then [reading]
  else reading :: readAll reading.reader reading.source reading.store reading.symbols
termination_by r.scanner.remaining src
decreasing_by
  exact Nat.lt_of_lt_of_le (remaining_read (Bool.eq_false_iff.2 _h)) (remaining_prepared_le r src)

/-- The last reading comes to the end of the input, and none before it does. -/
theorem readAll_ends (r : Reader) (src : LineSource) (store : Store) (symbols : SymbolTable) :
    ∃ readings last, r.readAll src store symbols = readings ++ [last] ∧ last.isAtEnd = true ∧
      ∀ reading ∈ readings, reading.isAtEnd = false := by
  fun_induction readAll r src store symbols with
  | case1 r src store symbols reading =>
      rename_i hend
      exact ⟨[], reading, rfl, hend, by simp⟩
  | case2 r src store symbols reading hmore =>
      rename_i ih
      obtain ⟨readings, last, heq, hend, hbefore⟩ := ih
      refine ⟨reading :: readings, last, by rw [heq, List.cons_append], hend, fun x hx => ?_⟩
      rcases List.mem_cons.1 hx with rfl | hx
      · exact Bool.eq_false_iff.2 hmore
      · exact hbefore x hx

end Reader

end SmallLisp
