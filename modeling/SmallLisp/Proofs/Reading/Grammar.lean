import SmallLisp.Proofs.Reading.Parsing

/-!
# The grammar of forms

Which tokens spell which form is a grammar of its own, given here by its rules. The parser accepts
exactly the sequences that begin with a form, takes no token past it and gives the form that the
rules name; otherwise it stops at the first token with which no form can begin. What the stack of
the parser stands for are the tokens it has taken, rule by rule, with the rules left open.
-/

namespace SmallLisp

/-- The token that a mark is written as. -/
def Mark.token : Mark → Token
  | .quote => .quote
  | .delay => .tilde
  | .template => .backquote
  | .unquote => .comma
  | .splice => .commaAt

namespace Grammar

/-! ## Derivations -/

mutual

/-- The tokens spell the form. -/
inductive Derives : List Token → Form → Prop
  | atom (a : Atom) : Derives [.atom a] (.atom a)
  | list {ts : List Token} {fs : List Form} (items : DerivesAll ts fs) :
      Derives (.openParen :: (ts ++ [.closeParen])) (.list fs)
  | dotted {ts us : List Token} {fs : List Form} {g : Form} (items : DerivesAll ts fs)
      (some : fs ≠ []) (tail : Derives us g) :
      Derives (.openParen :: (ts ++ .dot :: (us ++ [.closeParen]))) (.listWithTail fs g)
  | vector {ts : List Token} {fs : List Form} (items : DerivesAll ts fs) :
      Derives (.openBracket :: (ts ++ [.closeBracket])) (.vector fs)
  | mark (m : Mark) {ts : List Token} {f : Form} (form : Derives ts f) :
      Derives (m.token :: ts) (m.apply f)

/-- The tokens spell the forms, one after the other. -/
inductive DerivesAll : List Token → List Form → Prop
  | nil : DerivesAll [] []
  | cons {ts us : List Token} {f : Form} {fs : List Form} (first : Derives ts f)
      (rest : DerivesAll us fs) : DerivesAll (ts ++ us) (f :: fs)

end

/-- A form can begin with the tokens. -/
def Viable (ts : List Token) : Prop := ∃ us f, Derives (ts ++ us) f

theorem DerivesAll.append_one {ts us : List Token} {fs : List Form} {f : Form}
    (h : DerivesAll ts fs) (hf : Derives us f) : DerivesAll (ts ++ us) (fs ++ [f]) := by
  match h with
  | .nil => simpa using DerivesAll.cons hf .nil
  | .cons first rest =>
      rw [List.append_assoc]
      exact .cons first (rest.append_one hf)

end Grammar

/-! ## Parsing token by token -/

namespace Parser

open Grammar Reader

/-- Take tokens until there is a form or a fault; also the tokens that are left. -/
def parse (stack : List Pending) : List Token → Progress × List Token
  | [] => (.more stack, [])
  | t :: ts =>
      match feed stack t with
      | .more stack => parse stack ts
      | p => (p, ts)

/-- Go on with more tokens after some are taken. -/
def resume (p : Progress) (ts : List Token) : Progress × List Token :=
  match p with
  | .more stack => parse stack ts
  | p => (p, ts)

theorem parse_cons (stack : List Pending) (t : Token) (ts : List Token) :
    parse stack (t :: ts) = resume (feed stack t) ts := by
  rw [parse, resume.eq_def]

@[simp] theorem resume_more (stack : List Pending) (ts : List Token) :
    resume (.more stack) ts = parse stack ts := rfl

@[simp] theorem resume_done (f : Form) (ts : List Token) :
    resume (.done f) ts = (.done f, ts) := rfl

@[simp] theorem resume_fault (e : ReadFault) (ts : List Token) :
    resume (.fault e) ts = (.fault e, ts) := rfl

/-- Where a form must start, the tokens that close or divide do not help. -/
theorem feed_eq_start {stack : List Pending} (hstack : Open stack) {t : Token}
    (hparen : t ≠ .closeParen) (hbracket : t ≠ .closeBracket) (hdot : t ≠ .dot) :
    feed stack t = start stack t := by
  unfold feed
  split
  · contradiction
  · contradiction
  · contradiction
  · exact absurd rfl (hstack _ _ _)
  · contradiction
  · rfl

theorem start_mark (stack : List Pending) (m : Mark) :
    start stack m.token = .more (.mark m :: stack) := by
  cases m <;> rfl

theorem feed_mark {stack : List Pending} (hstack : Open stack) (m : Mark) :
    feed stack m.token = .more (.mark m :: stack) := by
  rw [feed_eq_start hstack, start_mark] <;> cases m <;> simp [Mark.token]

theorem open_list (items : List Form) (below : List Pending) : Open (.list items :: below) := by
  simp [Open]

theorem open_tail (items : List Form) (below : List Pending) : Open (.tail items :: below) := by
  simp [Open]

theorem open_vector (items : List Form) (below : List Pending) : Open (.vector items :: below) := by
  simp [Open]

theorem open_mark (m : Mark) (below : List Pending) : Open (.mark m :: below) := by
  simp [Open]

/-! ## What is derived is parsed -/

mutual

/-- The tokens of a form take the parser to where the form is complete. -/
theorem parse_derives {ts : List Token} {f : Form} {stack : List Pending} (hstack : Open stack)
    (rest : List Token) :
    Derives ts f → parse stack (ts ++ rest) = resume (complete f stack) rest
  | .atom a => by
      rw [List.singleton_append, parse_cons, feed_eq_start hstack (by simp) (by simp) (by simp),
        start]
  | @Derives.list ts fs items => by
      rw [List.cons_append, List.append_assoc, parse_cons,
        feed_eq_start hstack (by simp) (by simp) (by simp)]
      simp only [start, resume_more]
      rw [parse_derivesAll (fun items => .list items) (fun _ _ => rfl) (open_list · stack) [] _
        items, List.singleton_append, parse_cons]
      simp only [feed, List.append_nil, List.reverse_reverse]
  | @Derives.dotted ts us fs g items hsome tail => by
      rw [List.cons_append, List.append_assoc, parse_cons,
        feed_eq_start hstack (by simp) (by simp) (by simp)]
      simp only [start, resume_more]
      rw [parse_derivesAll (fun items => .list items) (fun _ _ => rfl) (open_list · stack) [] _
        items, List.cons_append, List.append_assoc, parse_cons, List.append_nil]
      have hdot : feed (.list fs.reverse :: stack) .dot = .more (.tail fs.reverse :: stack) := by
        cases hr : fs.reverse with
        | nil => exact absurd (List.reverse_eq_nil_iff.1 hr) hsome
        | cons f fs => rfl
      rw [hdot, resume_more, parse_derives (open_tail _ stack) _ tail]
      simp only [complete, resume_more, List.singleton_append]
      rw [parse_cons]
      simp only [feed, List.reverse_reverse]
  | @Derives.vector ts fs items => by
      rw [List.cons_append, List.append_assoc, parse_cons,
        feed_eq_start hstack (by simp) (by simp) (by simp)]
      simp only [start, resume_more]
      rw [parse_derivesAll (fun items => .vector items) (fun _ _ => rfl) (open_vector · stack) [] _
        items, List.singleton_append, parse_cons]
      simp only [feed, List.append_nil, List.reverse_reverse]
  | .mark m form => by
      rw [List.cons_append, parse_cons, feed_mark hstack, resume_more,
        parse_derives (open_mark m stack) _ form, complete]

/-- The tokens of forms put these in front of the items of an unfinished form. -/
theorem parse_derivesAll {ts : List Token} {fs : List Form} {below : List Pending}
    (frame : List Form → Pending)
    (hframe : ∀ f items, complete f (frame items :: below) = .more (frame (f :: items) :: below))
    (hopen : ∀ items, Open (frame items :: below)) (items : List Form) (rest : List Token) :
    DerivesAll ts fs →
      parse (frame items :: below) (ts ++ rest) =
        parse (frame (fs.reverse ++ items) :: below) rest
  | .nil => by simp
  | @DerivesAll.cons ts us f fs first others => by
      rw [List.append_assoc, parse_derives (hopen items) _ first, hframe, resume_more,
        parse_derivesAll frame hframe hopen (f :: items) rest others]
      simp

end

end Parser

/-! ## What is parsed is derived -/

namespace Grammar

open Reader

/-- The tokens that a stack of unfinished forms has taken. -/
inductive Taken : List Pending → List Token → Prop
  | none : Taken [] []
  | list {below : List Pending} {ts us : List Token} {items : List Form} (outer : Taken below ts)
      (hopen : Open below) (inner : DerivesAll us items.reverse) :
      Taken (.list items :: below) (ts ++ .openParen :: us)
  | tail {below : List Pending} {ts us : List Token} {items : List Form} (outer : Taken below ts)
      (hopen : Open below) (inner : DerivesAll us items.reverse) (some : items ≠ []) :
      Taken (.tail items :: below) (ts ++ .openParen :: (us ++ [.dot]))
  | close {below : List Pending} {ts us vs : List Token} {items : List Form} {g : Form}
      (outer : Taken below ts) (hopen : Open below) (inner : DerivesAll us items.reverse)
      (some : items ≠ []) (last : Derives vs g) :
      Taken (.close items g :: below) (ts ++ .openParen :: (us ++ .dot :: vs))
  | vector {below : List Pending} {ts us : List Token} {items : List Form} (outer : Taken below ts)
      (hopen : Open below) (inner : DerivesAll us items.reverse) :
      Taken (.vector items :: below) (ts ++ .openBracket :: us)
  | mark {below : List Pending} {ts : List Token} (m : Mark) (outer : Taken below ts)
      (hopen : Open below) : Taken (.mark m :: below) (ts ++ [m.token])

/-- What the parser has after the tokens: the form that they spell, or a stack that holds them. -/
def Reached (ts : List Token) : Progress → Prop
  | .done f => Derives ts f
  | .more stack => Taken stack ts
  | .fault _ => False

/-- A form that is complete is taken by the stack that waits for it. -/
theorem Taken.complete {stack : List Pending} {ts us : List Token} {f : Form}
    (h : Taken stack ts) (hopen : Open stack) (hf : Derives us f) :
    Reached (ts ++ us) (Parser.complete f stack) := by
  induction h generalizing us f with
  | none => exact hf
  | list outer hbelow inner _ =>
      rw [List.append_assoc, List.cons_append]
      refine Taken.list outer hbelow ?_
      rw [List.reverse_cons]
      exact inner.append_one hf
  | tail outer hbelow inner hsome _ =>
      rw [List.append_assoc, List.cons_append, List.append_assoc]
      exact Taken.close outer hbelow inner hsome hf
  | close => exact absurd rfl (hopen _ _ _)
  | vector outer hbelow inner _ =>
      rw [List.append_assoc, List.cons_append]
      refine Taken.vector outer hbelow ?_
      rw [List.reverse_cons]
      exact inner.append_one hf
  | mark m outer hbelow ih =>
      rw [List.append_assoc]
      exact ih hbelow (.mark m hf)

/-- How a parser refuses a token: after a dotted tail it wants the closing parenthesis, and anywhere
else it does not expect the token. -/
inductive Refuses : List Pending → Token → ReadFault → Prop
  | close (items : List Form) (g : Form) (below : List Pending) (t : Token) :
      t ≠ .closeParen → Refuses (.close items g :: below) t .closeExpected
  | paren (stack : List Pending) : Open stack → Refuses stack .closeParen (.unexpected ")")
  | bracket (stack : List Pending) : Open stack → Refuses stack .closeBracket (.unexpected "]")
  | dot (stack : List Pending) : Open stack → Refuses stack .dot (.unexpected ".")

/-- A token where a form must start is the first of a form, or refused. -/
theorem Taken.start {stack : List Pending} {ts : List Token} (h : Taken stack ts)
    (hopen : Open stack) (t : Token) :
    Reached (ts ++ [t]) (Parser.start stack t) ∨
      ∃ e, Parser.start stack t = .fault e ∧ Refuses stack t e := by
  cases t with
  | atom a => exact .inl (h.complete hopen (.atom a))
  | openParen => exact .inl (.list h hopen .nil)
  | openBracket => exact .inl (.vector h hopen .nil)
  | quote => exact .inl (.mark .quote h hopen)
  | tilde => exact .inl (.mark .delay h hopen)
  | backquote => exact .inl (.mark .template h hopen)
  | comma => exact .inl (.mark .unquote h hopen)
  | commaAt => exact .inl (.mark .splice h hopen)
  | closeParen => exact .inr ⟨_, rfl, .paren stack hopen⟩
  | closeBracket => exact .inr ⟨_, rfl, .bracket stack hopen⟩
  | dot => exact .inr ⟨_, rfl, .dot stack hopen⟩

/-- One token more is taken or refused. -/
theorem Taken.feed {stack : List Pending} {ts : List Token} (h : Taken stack ts) (t : Token) :
    Reached (ts ++ [t]) (Parser.feed stack t) ∨
      ∃ e, Parser.feed stack t = .fault e ∧ Refuses stack t e := by
  unfold Parser.feed
  split
  · rename_i items below
    cases h with
    | list outer hbelow inner =>
        left
        rw [List.append_assoc, List.cons_append]
        exact outer.complete hbelow (.list inner)
  · rename_i item items below
    cases h with
    | list outer hbelow inner =>
        left
        rw [List.append_assoc, List.cons_append]
        exact Taken.tail outer hbelow inner (by simp)
  · rename_i items g below
    cases h with
    | close outer hbelow inner hsome last =>
        left
        rw [List.append_assoc, List.cons_append, List.append_assoc, List.cons_append]
        refine outer.complete hbelow (.dotted inner ?_ last)
        simpa using hsome
  · rename_i items g below hparen
    exact .inr ⟨_, rfl, .close items g below t hparen⟩
  · rename_i items below
    cases h with
    | vector outer hbelow inner =>
        left
        rw [List.append_assoc, List.cons_append]
        exact outer.complete hbelow (.vector inner)
  · rename_i hopen _ _ _ _
    exact h.start hopen t

/-! ## What can be continued -/

theorem Derives.viable {ts : List Token} {f : Form} (h : Derives ts f) : Viable ts :=
  ⟨[], f, by simpa using h⟩

theorem Viable.of_append {ts : List Token} (us : List Token) (h : Viable (ts ++ us)) :
    Viable ts := by
  obtain ⟨vs, f, hf⟩ := h
  exact ⟨us ++ vs, f, by simpa using hf⟩

/-- Whatever the stack has taken, with the form it waits for, can be continued to a whole form. -/
theorem Taken.viable_complete {stack : List Pending} {ts us : List Token} {f : Form}
    (h : Taken stack ts) (hopen : Open stack) (hf : Derives us f) : Viable (ts ++ us) := by
  induction h generalizing us f with
  | none => exact hf.viable
  | list outer hbelow inner ih =>
      have hwhole := ih hbelow (.list (inner.append_one hf))
      apply Viable.of_append [.closeParen]
      simpa using hwhole
  | tail outer hbelow inner hsome ih =>
      have hwhole := ih hbelow (.dotted inner (by simpa using hsome) hf)
      apply Viable.of_append [.closeParen]
      simpa using hwhole
  | close => exact absurd rfl (hopen _ _ _)
  | vector outer hbelow inner ih =>
      have hwhole := ih hbelow (.vector (inner.append_one hf))
      apply Viable.of_append [.closeBracket]
      simpa using hwhole
  | mark m outer hbelow ih =>
      have hwhole := ih hbelow (.mark m hf)
      simpa using hwhole

/-- Whatever the stack has taken can be continued to a whole form; unless a dotted tail is complete,
an atom can be next. -/
theorem Taken.viable {stack : List Pending} {ts : List Token} (h : Taken stack ts) :
    Viable ts := by
  by_cases hopen : Open stack
  · exact (h.viable_complete hopen (.atom .nil)).of_append _
  · cases h with
    | close outer hbelow inner hsome last =>
        have hwhole := outer.viable_complete hbelow (.dotted inner (by simpa using hsome) last)
        apply Viable.of_append [.closeParen]
        simpa using hwhole
    | _ => exact absurd (by simp [Open]) hopen

end Grammar

/-! ## Runs of the parser -/

namespace Parser

open Grammar Reader

/-- Tokens that leave a stack can be taken first. -/
theorem parse_append {stack stack' : List Pending} {ts : List Token}
    (h : parse stack ts = (.more stack', [])) (us : List Token) :
    parse stack (ts ++ us) = parse stack' us := by
  induction ts generalizing stack with
  | nil =>
      simp only [parse, Prod.mk.injEq, Progress.more.injEq, and_true] at h
      rw [List.nil_append, h]
  | cons t ts ih =>
      rw [parse_cons] at h
      rw [List.cons_append, parse_cons]
      cases hf : feed stack t with
      | more next =>
          rw [hf, resume_more] at h
          exact ih h
      | done f => simp [hf] at h
      | fault e => simp [hf] at h

/-- How a run of the parser ends: with the form that the tokens it took spell, at a token that is
refused, or with all tokens taken. -/
theorem parse_cases {stack : List Pending} {us : List Token} (h : Taken stack us)
    (ts : List Token) :
    (∃ used rest f, ts = used ++ rest ∧ parse stack ts = (.done f, rest) ∧ Derives (us ++ used) f) ∨
    (∃ used t rest e next, ts = used ++ t :: rest ∧ parse stack ts = (.fault e, rest) ∧
      parse stack used = (.more next, []) ∧ Taken next (us ++ used) ∧ feed next t = .fault e ∧
      Refuses next t e) ∨
    ∃ next, parse stack ts = (.more next, []) ∧ Taken next (us ++ ts) := by
  induction ts generalizing stack us with
  | nil => exact .inr (.inr ⟨stack, rfl, by simpa using h⟩)
  | cons t ts ih =>
      rw [parse_cons]
      rcases h.feed t with hreached | ⟨e, hfault, hrefuses⟩
      · cases hf : feed stack t with
        | done f =>
            rw [hf] at hreached
            exact .inl ⟨[t], ts, f, rfl, rfl, hreached⟩
        | fault e =>
            rw [hf] at hreached
            exact hreached.elim
        | more next =>
            rw [hf] at hreached
            rcases ih hreached with ⟨used, rest, f, hts, hp, hd⟩ |
              ⟨used, u, rest, e, last, hts, hp, hmore, htaken, hfault, hrefuses⟩ |
              ⟨last, hp, htaken⟩
            · exact .inl ⟨t :: used, rest, f, by rw [hts]; rfl, hp, by simpa using hd⟩
            · refine .inr (.inl ⟨t :: used, u, rest, e, last, by rw [hts]; rfl, hp, ?_, ?_, hfault,
                hrefuses⟩)
              · rw [parse_cons, hf]
                exact hmore
              · simpa using htaken
            · exact .inr (.inr ⟨last, hp, by simpa using htaken⟩)
      · rw [hfault]
        exact .inr (.inl ⟨[], t, ts, e, stack, rfl, rfl, rfl, by simpa using h, hfault, hrefuses⟩)

/-- The parser has a form exactly if the tokens begin with one, and leaves the tokens after it. -/
theorem parse_eq_done_iff {ts rest : List Token} {f : Form} :
    parse [] ts = (.done f, rest) ↔ ∃ used, ts = used ++ rest ∧ Derives used f := by
  constructor
  · intro hp
    rcases parse_cases .none ts with ⟨used, rest', g, hts, hp', hd⟩ |
      ⟨used, t, rest', e, next, hts, hp', -⟩ | ⟨next, hp', -⟩
    · rw [hp] at hp'
      cases hp'
      exact ⟨used, hts, hd⟩
    · rw [hp] at hp'
      cases hp'
    · rw [hp] at hp'
      cases hp'
  · intro h
    obtain ⟨used, rfl, hd⟩ := h
    exact parse_derives (by simp [Open]) rest hd

end Parser

namespace Grammar

open Reader

/-- No form is the beginning of another. -/
theorem Derives.unique {ts us rest rest' : List Token} {f g : Form} (hf : Derives ts f)
    (hg : Derives us g) (h : ts ++ rest = us ++ rest') : ts = us ∧ f = g := by
  have hp : Parser.parse [] (ts ++ rest) = (.done f, rest) :=
    Parser.parse_eq_done_iff.2 ⟨ts, rfl, hf⟩
  have hp' : Parser.parse [] (us ++ rest') = (.done g, rest') :=
    Parser.parse_eq_done_iff.2 ⟨us, rfl, hg⟩
  rw [h, hp'] at hp
  cases hp
  exact ⟨List.append_cancel_right h, rfl⟩

/-- Where the parser refuses a token, no form can begin with the tokens up to it. -/
theorem not_viable_of_fault {ts : List Token} {t : Token} {stack : List Pending} {e : ReadFault}
    (hmore : Parser.parse [] ts = (.more stack, [])) (hfault : Parser.feed stack t = .fault e) :
    ¬ Viable (ts ++ [t]) := by
  intro h
  obtain ⟨us, f, hf⟩ := h
  have hempty : Open [] := by simp [Open]
  have hp := Parser.parse_derives hempty [] hf
  rw [List.append_nil, List.append_assoc, Parser.parse_append hmore, List.singleton_append,
    Parser.parse_cons, hfault] at hp
  cases hp

/-- The text of a token that closes or divides and can start no form. -/
def divider? : Token → Option String
  | .closeParen => some ")"
  | .closeBracket => some "]"
  | .dot => some "."
  | _ => none

/-- How a token is refused after others: where nothing but a closing parenthesis can follow, that is
what is missed; anywhere else the token is what is not expected. -/
def Refused (ts : List Token) (t : Token) (e : ReadFault) : Prop :=
  ((∀ u, Viable (ts ++ [u]) → u = .closeParen) ∧ e = .closeExpected) ∨
    ((∃ u, u ≠ .closeParen ∧ Viable (ts ++ [u])) ∧
      ∃ text, divider? t = some text ∧ e = .unexpected text)

theorem Refuses.refused {stack : List Pending} {ts : List Token} {t : Token} {e : ReadFault}
    (h : Refuses stack t e) (hmore : Parser.parse [] ts = (.more stack, []))
    (htaken : Taken stack ts) : Refused ts t e := by
  have hatom : Open stack → ∃ u, u ≠ .closeParen ∧ Viable (ts ++ [u]) := fun hopen =>
    ⟨.atom .nil, by simp, htaken.viable_complete hopen (.atom .nil)⟩
  cases h with
  | close items g below t _ =>
      refine .inl ⟨fun u hu => ?_, rfl⟩
      by_contra hne
      refine not_viable_of_fault (t := u) (e := .closeExpected) hmore ?_ hu
      cases u <;> first | rfl | exact absurd rfl hne
  | paren _ hopen => exact .inr ⟨hatom hopen, _, rfl, rfl⟩
  | bracket _ hopen => exact .inr ⟨hatom hopen, _, rfl, rfl⟩
  | dot _ hopen => exact .inr ⟨hatom hopen, _, rfl, rfl⟩

end Grammar

/-! ## Forms as lists -/

namespace Form

/-- The items of a form seen as a list; a form that is no list has none. -/
def items : Form → List Form
  | .pair a b => a :: b.items
  | _ => []

/-- What stands after the dot of a form seen as a list; nothing after a proper list. -/
def ending : Form → Option Form
  | .pair _ b => b.ending
  | .atom .nil => none
  | f => some f

/-- The items of a tail that is a list are spliced. -/
theorem items_listWithTail (fs : List Form) (g : Form) :
    (listWithTail fs g).items = fs ++ g.items := by
  induction fs with
  | nil => rfl
  | cons f fs ih => simpa [listWithTail, items] using ih

theorem ending_listWithTail (fs : List Form) (g : Form) :
    (listWithTail fs g).ending = g.ending := by
  induction fs with
  | nil => rfl
  | cons f fs ih => simpa [listWithTail, ending] using ih

/-- What stands after a dot is neither nil nor a list. -/
theorem eq_of_ending {f g : Form} (h : f.ending = some g) : g ≠ nil ∧ g.items = [] := by
  induction f using Form.ending.induct with
  | case1 a b ih => exact ih h
  | case2 => cases h
  | case3 f hpair hnil =>
      rw [ending] at h
      · cases h
        refine ⟨hnil, ?_⟩
        cases g with
        | pair a b => exact absurd rfl (hpair a b)
        | _ => rfl
      · exact hpair
      · exact hnil

/-- A form is its items in front of what stands after the dot, so it is a list in one way only. -/
theorem listWithTail_items_ending (f : Form) : listWithTail f.items (f.ending.getD nil) = f := by
  induction f using Form.ending.induct with
  | case1 a b ih =>
      rw [items, ending, listWithTail, List.foldr_cons]
      exact congrArg (pair a) ih
  | case2 => rfl
  | case3 f hpair hnil =>
      rw [ending]
      · cases f with
        | pair a b => exact absurd rfl (hpair a b)
        | _ => rfl
      · exact hpair
      · exact hnil

end Form

/-! ## Reading -/

/-- The scanner gives the tokens one after the other, and then stands as it does. -/
inductive Scanner.Gives : Scanner → LineSource → List Token → Scanner → LineSource → Prop
  | none (sc : Scanner) (src : LineSource) : Gives sc src [] sc src
  | next {sc sc₁ sc' : Scanner} {src src₁ src' : LineSource} {t : Token} {ts : List Token}
      (first : sc.next src = (.ok (some t), sc₁, src₁)) (rest : Gives sc₁ src₁ ts sc' src') :
      Gives sc src (t :: ts) sc' src'

theorem Scanner.Gives.of_append {sc sc' : Scanner} {src src' : LineSource} {ts us : List Token}
    (h : sc.Gives src (ts ++ us) sc' src') :
    ∃ sc₁ src₁, sc.Gives src ts sc₁ src₁ ∧ sc₁.Gives src₁ us sc' src' := by
  induction ts generalizing sc src with
  | nil => exact ⟨sc, src, .none sc src, h⟩
  | cons t ts ih =>
      cases h with
      | next first rest =>
          obtain ⟨sc₂, src₂, hts, hus⟩ := ih rest
          exact ⟨sc₂, src₂, .next first hts, hus⟩

namespace Reader

open Grammar

/-- What the parser makes of the tokens is what reading makes of them. -/
theorem readForm_of_gives {sc sc' : Scanner} {src src' : LineSource} {ts : List Token}
    (h : sc.Gives src ts sc' src') {stack : List Pending} {p : Progress}
    (hp : Parser.parse stack ts = (p, [])) : readForm stack sc src = after p sc' src' := by
  induction h generalizing stack with
  | none sc src =>
      cases hp
      rfl
  | @next sc sc₁ sc' src src₁ src' t ts first rest ih =>
      rw [readForm_eq, first, afterNext]
      rw [Parser.parse_cons] at hp
      cases hf : Parser.feed stack t with
      | more next =>
          rw [hf] at hp
          exact ih hp
      | done f =>
          rw [hf] at hp
          cases hp
          cases rest
          rfl
      | fault e =>
          rw [hf] at hp
          cases hp
          cases rest
          rfl

/-- Reading follows the grammar. If the scanner gives some tokens up to the end of the input, a form
is read exactly if the tokens begin with one, and reading stops right after it; no two forms begin a
sequence of tokens. Otherwise reading fails at the first token with which no form can begin, or at
the end of the input. A form that is a list has items, and what follows its dot is neither nil nor a
list: the items of a tail that is a list are spliced. -/
theorem readForm_follows_grammar {sc sc₁ sc₂ : Scanner} {src src₁ src₂ : LineSource}
    {ts : List Token} (hts : sc.Gives src ts sc₁ src₁)
    (hend : sc₁.next src₁ = (.ok none, sc₂, src₂)) :
    (∀ f sc' src', readForm [] sc src = (.ok (some f), sc', src') ↔
      ∃ p q, ts = p ++ q ∧ Derives p f ∧ sc.Gives src p sc' src') ∧
    (∀ p q p' q' f g, ts = p ++ q → ts = p' ++ q' → Derives p f → Derives p' g →
      p = p' ∧ f = g) ∧
    ((∀ p q f, ts = p ++ q → ¬ Derives p f) →
      (∃ p t q e sc' src', ts = p ++ t :: q ∧ Viable p ∧ ¬ Viable (p ++ [t]) ∧ Refused p t e ∧
        sc.Gives src (p ++ [t]) sc' src' ∧
        readForm [] sc src = (.error (sc'.fault e), sc', src')) ∨
      (ts ≠ [] ∧ Viable ts ∧
        readForm [] sc src = (.error (sc₂.fault .unexpectedEnd), sc₂, src₂)) ∨
      (ts = [] ∧ readForm [] sc src = (.ok none, sc₂, src₂))) ∧
    (∀ fs g, (Form.listWithTail fs g).items = fs ++ g.items ∧
      (Form.listWithTail fs g).ending = g.ending) ∧
    (∀ a b, (Form.pair a b).items ≠ []) ∧
    ∀ f g : Form, f.ending = some g → g ≠ .nil ∧ g.items = [] := by
  -- A form that the tokens begin with is read, and nothing past it.
  have hread : ∀ p q f, ts = p ++ q → Derives p f →
      ∃ sc' src', sc.Gives src p sc' src' ∧ readForm [] sc src = (.ok (some f), sc', src') := by
    intro p q f htoks hd
    rw [htoks] at hts
    obtain ⟨sc', src', hp, -⟩ := hts.of_append
    refine ⟨sc', src', hp, readForm_of_gives hp (p := .done f) ?_⟩
    exact Parser.parse_eq_done_iff.2 ⟨p, by simp, hd⟩
  have hfail : (∀ p q f, ts = p ++ q → ¬ Derives p f) →
      (∃ p t q e sc' src', ts = p ++ t :: q ∧ Viable p ∧ ¬ Viable (p ++ [t]) ∧ Refused p t e ∧
        sc.Gives src (p ++ [t]) sc' src' ∧
        readForm [] sc src = (.error (sc'.fault e), sc', src')) ∨
      (ts ≠ [] ∧ Viable ts ∧
        readForm [] sc src = (.error (sc₂.fault .unexpectedEnd), sc₂, src₂)) ∨
      (ts = [] ∧ readForm [] sc src = (.ok none, sc₂, src₂)) := by
    intro hnone
    rcases Parser.parse_cases .none ts with ⟨p, q, f, htoks, -, hd⟩ |
      ⟨p, t, q, e, next, htoks, -, hmore, htaken, hfault, hrefuses⟩ | ⟨next, hmore, htaken⟩
    · exact absurd hd (hnone p q f htoks)
    · left
      have hgives := hts
      rw [htoks, List.append_cons] at hgives
      obtain ⟨sc', src', hp, -⟩ := hgives.of_append
      refine ⟨p, t, q, e, sc', src', htoks, htaken.viable, not_viable_of_fault hmore hfault,
        hrefuses.refused hmore htaken, hp, readForm_of_gives hp (p := .fault e) ?_⟩
      rw [Parser.parse_append hmore, Parser.parse_cons, hfault]
      rfl
    · right
      have hlast : readForm [] sc src = afterNext next (sc₁.next src₁) := by
        rw [readForm_of_gives hts hmore, after_more, readForm_eq]
      rw [hlast, hend]
      cases ts with
      | nil =>
          cases hmore
          exact .inr ⟨rfl, rfl⟩
      | cons t ts =>
          left
          refine ⟨by simp, htaken.viable, ?_⟩
          cases next with
          | nil => cases htaken
          | cons frame below => rfl
  refine ⟨fun f sc' src' => ⟨fun h => ?_, fun h => ?_⟩, ?_, hfail, ?_, ?_, ?_⟩
  · by_contra hnone
    have hno : ∀ p q g, ts = p ++ q → ¬ Derives p g := by
      intro p q g htoks hd
      obtain ⟨sc₃, src₃, hp, hr⟩ := hread p q g htoks hd
      rw [h] at hr
      cases hr
      exact hnone ⟨p, q, htoks, hd, hp⟩
    rcases hfail hno with ⟨_, _, _, _, _, _, _, _, _, _, _, hr⟩ | ⟨-, -, hr⟩ | ⟨-, hr⟩ <;>
    · rw [h] at hr
      cases hr
  · obtain ⟨p, q, htoks, hd, hp⟩ := h
    exact readForm_of_gives hp (Parser.parse_eq_done_iff.2 ⟨p, by simp, hd⟩)
  · intro p q p' q' f g hpq hpq' hf hg
    exact hf.unique hg (hpq.symm.trans hpq')
  · exact fun fs g => ⟨Form.items_listWithTail fs g, Form.ending_listWithTail fs g⟩
  · simp [Form.items]
  · exact fun f g h => Form.eq_of_ending h

/-- Of the text `(a .(b)) c` one form is read, the list after the dot spliced into it; the last
word is left. -/
theorem readForm_follows_grammar_dotted :
    readForm [] { rest := ['(', 'a', ' ', '.', '(', 'b', ')', ')', ' ', 'c'] }
      { answers := [] } =
      (.ok (some (.pair (.atom (.sym "a")) (.pair (.atom (.sym "b")) (.atom .nil)))),
        { rest := [' ', 'c'] }, { answers := [] }) := by
  have hform : Scanner.Gives { rest := ['(', 'a', ' ', '.', '(', 'b', ')', ')', ' ', 'c'] }
      { answers := [] } [.openParen, .atom (.sym "a"), .dot, .openParen, .atom (.sym "b"),
        .closeParen, .closeParen] { rest := [' ', 'c'] } { answers := [] } :=
    .next rfl (.next rfl (.next rfl (.next rfl (.next rfl (.next rfl (.next rfl (.none _ _)))))))
  have hts : Scanner.Gives { rest := ['(', 'a', ' ', '.', '(', 'b', ')', ')', ' ', 'c'] }
      { answers := [] } [.openParen, .atom (.sym "a"), .dot, .openParen, .atom (.sym "b"),
        .closeParen, .closeParen, .atom (.sym "c")] {} { answers := [] } :=
    .next rfl (.next rfl (.next rfl (.next rfl (.next rfl (.next rfl (.next rfl (.next rfl
      (.none _ _))))))))
  have hd : Derives [.openParen, .atom (.sym "a"), .dot, .openParen, .atom (.sym "b"),
      .closeParen, .closeParen] (.listWithTail [.atom (.sym "a")] (.list [.atom (.sym "b")])) :=
    .dotted (.cons (.atom _) .nil) (List.cons_ne_nil _ _) (.list (.cons (.atom _) .nil))
  have hread := (readForm_follows_grammar hts rfl).1
  exact (hread _ _ _).2 ⟨_, [.atom (.sym "c")], rfl, hd, hform⟩

end Reader

end SmallLisp
