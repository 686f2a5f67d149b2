import BeliefRevision.Formula.Printer
import BeliefRevision.Proofs.Canonical

/-!
# Printed formulas can be read in one way only

The text of a formula puts an operand in parentheses only if it has operands of its own to separate.
That this is enough rests on three things: a junction of canonical formulas has two operands at
least, a negation has one that ends where it must, and no variable is spelled like a connective.

Texts are compared from left to right. What an operand is written as is never the beginning of what
another one is written as, unless this goes on with a letter or digit (`Readable.separable`): the
first word tells the kind of the operand, and the induction is on the operands inside. A formula in
parentheses is its first operand and then a keyword before each further one, and these can be told
apart one by one (`continued_append_inj`).

* **`text_injective`**: formulas with the same text are equal.
-/

namespace BeliefRevision

/-! ## Names and keywords -/

/-- Whether a variable is spelled as a letter followed by letters and digits, and not like a
connective. -/
def isIdentifier (v : Variable) : Bool :=
  v.toList.head?.any Char.isAlpha && v.toList.all Char.isAlphanum &&
    (Connective.ofKeyword? v).isNone

namespace Connective

variable {c d : Connective}

theorem mem_all (c : Connective) : c ∈ all := by
  rcases c with _ | j | b
  · decide
  · cases j <;> decide
  · cases b <;> decide

theorem keyword_injective (h : c.keyword = d.keyword) : c = d := by
  have distinct : (all.map keyword).Nodup := by decide
  exact List.inj_on_of_nodup_map distinct c.mem_all d.mem_all h

theorem isAlphanum_of_mem_keyword {x : Char} (h : x ∈ c.keyword.toList) : x.isAlphanum = true := by
  have words : ∀ c ∈ all, c.keyword.toList.all Char.isAlphanum = true := by decide
  exact List.all_eq_true.mp (words c c.mem_all) x h

end Connective

/-! ## Reading from the left -/

/-- The text does not start with a letter or digit. -/
def Ends (r : List Char) : Prop := r.takeWhile Char.isAlphanum = []

/-- The text is at its end or before a closing parenthesis. -/
def Closes (r : List Char) : Prop := ∀ x ∈ r.head?, x = ')'

variable {r s w x : List Char}

theorem Closes.ends (h : Closes r) : Ends r := by
  cases r with
  | nil => rfl
  | cons x r =>
    cases h x rfl
    rfl

theorem ends_nil : Ends [] := rfl

theorem ends_space (r : List Char) : Ends (' ' :: r) := rfl

/-- A word is read up to its end. -/
theorem takeWhile_word (hw : ∀ c ∈ w, c.isAlphanum = true) (hr : Ends r) :
    (w ++ r).takeWhile Char.isAlphanum = w := by
  rw [List.takeWhile_append_of_pos hw, hr, List.append_nil]

theorem word_append_inj (hw : ∀ c ∈ w, c.isAlphanum = true) (hx : ∀ c ∈ x, c.isAlphanum = true)
    (hr : Ends r) (hs : Ends s) (h : w ++ r = x ++ s) : w = x ∧ r = s := by
  have words := congrArg (List.takeWhile Char.isAlphanum) h
  rw [takeWhile_word hw hr, takeWhile_word hx hs] at words
  subst words
  exact ⟨rfl, List.append_cancel_left h⟩

namespace Formula

variable {p q : Formula} {c d : Connective} {ps qs : List Formula}

/-! ## Texts of operands -/

/-- How a formula is written as an operand. -/
def written (p : Formula) : List Char := (enclose p p.text).toList

/-- How the operands behind the first one are written, each behind the keyword. -/
def continued (c : Connective) (ps : List Formula) : List Char :=
  ps.flatMap fun p => ' ' :: (c.keyword.toList ++ ' ' :: p.written)

theorem continued_cons : continued c (p :: ps) =
    ' ' :: (c.keyword.toList ++ ' ' :: (p.written ++ continued c ps)) := by
  simp [continued]

theorem written_of_le (h : p.operands.length ≤ 1) : p.written = p.text.toList := by
  rw [written, enclose, if_neg (by omega)]

theorem written_of_lt (h : 1 < p.operands.length) :
    p.written = '(' :: (p.text.toList ++ [')']) := by
  rw [written, enclose, if_pos h]
  simp

theorem written_not : (not p).written = "not ".toList ++ p.written := by
  rw [written_of_le (p := not p) (Nat.le_refl 1), text]
  simp [written, Connective.keyword]

theorem operandTexts_eq_map : operandTexts ps = ps.map fun p => enclose p p.text := by
  induction ps with
  | nil => rfl
  | cons p ps ih => rw [operandTexts, ih, List.map_cons]

theorem intercalate_eq_continued (j : Junction) (p : Formula) (ps : List Formula) :
    ((" " ++ j.keyword ++ " ").intercalate (operandTexts (p :: ps))).toList =
      p.written ++ continued (.junction j) ps := by
  rw [String.toList_intercalate, operandTexts_eq_map, List.map_map]
  induction ps generalizing p with
  | nil => simp [continued, written]
  | cons q qs ih =>
    rw [List.map_cons, List.map_cons, List.intercalate_cons_cons, ← List.map_cons, ih]
    simp [continued, written, Connective.keyword]

/-- **A formula with several operands** is written as the first one, then the keyword before each
further one. -/
theorem toList_text (h : p.connective? = some c) (hc : c ≠ .negation)
    (operands : p.operands = q :: qs) : p.text.toList = q.written ++ continued c qs := by
  cases p with
  | join j ps =>
    cases h
    cases operands
    exact intercalate_eq_continued j q qs
  | binary b p₁ p₂ =>
    cases h
    cases operands
    simp [text, continued, written, Connective.keyword]
  | not p =>
    cases h
    exact absurd rfl hc
  | _ => cases h

/-! ## What operands start with -/

/-- The word that a formula starts with as an operand; none if it is in parentheses. -/
def heading : Formula → String
  | var v => v
  | top => "1"
  | bot => "0"
  | not _ => Connective.negation.keyword
  | join _ _ | binary _ _ _ => ""

/-- The formula can be built from variables that are identifiers. -/
structure Readable (p : Formula) : Prop where
  canonical : p.Canonical
  identifiers : ∀ v ∈ p.occurrences, isIdentifier v = true

theorem Readable.operand (h : p.Readable) (hq : q ∈ p.operands) : q.Readable where
  canonical := h.canonical.operand hq
  identifiers v hv := h.identifiers v (mem_occurrences_of_mem_operands hq hv)

theorem Readable.lt_of_join {j : Junction} (h : (join j ps).Readable) : 1 < ps.length := by
  cases h.canonical with
  | join many _ _ => exact many

theorem takeWhile_written (h : p.Readable) (hr : Ends r) :
    (p.written ++ r).takeWhile Char.isAlphanum = p.heading.toList := by
  cases p with
  | var v =>
    have word : ∀ c ∈ v.toList, c.isAlphanum = true := by
      have identifier := h.identifiers v (List.mem_singleton.mpr rfl)
      simp only [isIdentifier, Bool.and_eq_true, List.all_eq_true] at identifier
      exact identifier.1.2
    rw [written_of_le (p := var v) (Nat.zero_le 1)]
    exact takeWhile_word word hr
  | top => exact takeWhile_word (w := ['1']) (List.forall_mem_singleton.mpr rfl) hr
  | bot => exact takeWhile_word (w := ['0']) (List.forall_mem_singleton.mpr rfl) hr
  | not p =>
    rw [written_not]
    exact takeWhile_word (w := "not".toList) (r := ' ' :: (p.written ++ r))
      (fun _ => Connective.isAlphanum_of_mem_keyword (c := .negation)) rfl
  | join j ps =>
    rw [written_of_lt (p := join j ps) h.lt_of_join]
    rfl
  | binary b p₁ p₂ =>
    rw [written_of_lt (p := binary b p₁ p₂) (Nat.lt_succ_self 1)]
    rfl

/-- No other kind of formula starts with what a variable is spelled like. -/
theorem Readable.var_ne {v : Variable} (h : (var v).Readable) :
    v ≠ "1" ∧ v ≠ "0" ∧ v ≠ Connective.negation.keyword ∧ v ≠ "" := by
  have identifier := h.identifiers v (List.mem_singleton.mpr rfl)
  refine ⟨?_, ?_, ?_, ?_⟩ <;> rintro rfl <;> revert identifier <;> decide

/-- **The first word tells apart** the kinds of formulas, and different leaves. -/
theorem alike_of_heading_eq (hp : p.Readable) (hq : q.Readable) (h : p.heading = q.heading) :
    p = q ∨ (∃ p' q', p = not p' ∧ q = not q') ∨
      1 < p.operands.length ∧ 1 < q.operands.length := by
  have pVar : ∀ v, p = var v → v ≠ "1" ∧ v ≠ "0" ∧ v ≠ "not" ∧ v ≠ "" := by
    rintro v rfl
    exact hp.var_ne
  have qVar : ∀ v, q = var v → "1" ≠ v ∧ "0" ≠ v ∧ "not" ≠ v ∧ "" ≠ v := by
    rintro v rfl
    obtain ⟨top, bot, neg, none⟩ := hq.var_ne
    exact ⟨top.symm, bot.symm, neg.symm, none.symm⟩
  have pJoin : ∀ j ps, p = join j ps → 1 < ps.length := by
    rintro j ps rfl
    exact hp.lt_of_join
  have qJoin : ∀ j ps, q = join j ps → 1 < ps.length := by
    rintro j ps rfl
    exact hq.lt_of_join
  cases p <;> cases q <;> simp_all [heading, operands, Connective.keyword]

/-! ## Reading from the left -/

/-- What the formula is written as can be told from what stands behind it. -/
def Separable (p : Formula) : Prop :=
  ∀ {q : Formula} {r s : List Char}, q.Readable → Ends r → Ends s →
    p.written ++ r = q.written ++ s → p = q ∧ r = s

theorem ends_continued (hr : Closes r) : Ends (continued c ps ++ r) := by
  cases ps with
  | nil => exact hr.ends
  | cons p ps => rfl

theorem continued_append_inj (hps : ∀ p ∈ ps, p.Separable) (hqs : ∀ q ∈ qs, q.Readable)
    (hr : Closes r) (hs : Closes s) (h : continued c ps ++ r = continued d qs ++ s) :
    ps = qs ∧ (ps ≠ [] → c = d) ∧ r = s := by
  induction ps generalizing qs with
  | nil =>
    cases qs with
    | nil => exact ⟨rfl, fun ne => absurd rfl ne, h⟩
    | cons q qs =>
      have closing := hr ' ' (by rw [show r = _ from h]; rfl)
      exact absurd closing (by decide)
  | cons p ps ih =>
    cases qs with
    | nil =>
      have closing := hs ' ' (by rw [← show _ = s from h]; rfl)
      exact absurd closing (by decide)
    | cons q qs =>
      obtain ⟨hp, separable⟩ := List.forall_mem_cons.mp hps
      obtain ⟨hq, readable⟩ := List.forall_mem_cons.mp hqs
      simp only [continued_cons, List.cons_append, List.append_assoc] at h
      obtain ⟨keyword, h⟩ := word_append_inj (fun _ => Connective.isAlphanum_of_mem_keyword)
        (fun _ => Connective.isAlphanum_of_mem_keyword) (ends_space _) (ends_space _)
        (List.cons.inj h).2
      obtain ⟨rfl, further⟩ := hp hq (ends_continued hr) (ends_continued hs) (List.cons.inj h).2
      obtain ⟨rfl, -, rest⟩ := ih separable readable further
      exact ⟨rfl, fun _ => Connective.keyword_injective (String.toList_inj.mp keyword), rest⟩

/-- A formula with several operands has a connective that is written between them. -/
theorem exists_connective (h : 1 < p.operands.length) :
    ∃ c q qs, p.connective? = some c ∧ c ≠ .negation ∧ p.operands = q :: qs ∧ qs ≠ [] := by
  have first : ∃ q qs, p.operands = q :: qs ∧ qs ≠ [] := by
    rcases hps : p.operands with _ | ⟨q, _ | ⟨q', qs⟩⟩
    · simp [hps] at h
    · simp [hps] at h
    · exact ⟨q, q' :: qs, rfl, List.cons_ne_nil _ _⟩
  obtain ⟨q, qs, operands, several⟩ := first
  cases p with
  | join j ps => exact ⟨.junction j, q, qs, rfl, by simp, operands, several⟩
  | binary b p₁ p₂ => exact ⟨.binary b, q, qs, rfl, by simp, operands, several⟩
  | _ => simp [Formula.operands] at h

theorem text_append_inj (separable : ∀ u ∈ p.operands, u.Separable) (hp : p.Readable)
    (hq : q.Readable) (many : 1 < p.operands.length) (many' : 1 < q.operands.length)
    (hr : Closes r) (hs : Closes s) (h : p.text.toList ++ r = q.text.toList ++ s) :
    p = q ∧ r = s := by
  obtain ⟨c, u, us, hc, infixed, operands, several⟩ := exists_connective many
  obtain ⟨d, v, vs, hd, infixed', operands', -⟩ := exists_connective many'
  rw [toList_text hc infixed operands, toList_text hd infixed' operands', List.append_assoc,
    List.append_assoc] at h
  rw [operands] at separable
  obtain ⟨hu, hus⟩ := List.forall_mem_cons.mp separable
  have readable : ∀ w ∈ v :: vs, w.Readable := fun w hw => hq.operand (operands' ▸ hw)
  obtain ⟨hv, hvs⟩ := List.forall_mem_cons.mp readable
  obtain ⟨rfl, further⟩ := hu hv (ends_continued hr) (ends_continued hs) h
  obtain ⟨rfl, same, rest⟩ := continued_append_inj hus hvs hr hs further
  obtain rfl := same several
  exact ⟨hp.canonical.eq_of_operands_eq hq.canonical hc hd (operands.trans operands'.symm), rest⟩

/-- **No operand is written like the beginning of another one.** -/
theorem Readable.separable (hp : p.Readable) : p.Separable := by
  induction p using induction_operands with
  | step p ih =>
    intro q r s hq hr hs h
    have headings := congrArg (List.takeWhile Char.isAlphanum) h
    rw [takeWhile_written hp hr, takeWhile_written hq hs, String.toList_inj] at headings
    rcases alike_of_heading_eq hp hq headings with rfl | ⟨p, q, rfl, rfl⟩ | ⟨many, many'⟩
    · exact ⟨rfl, List.append_cancel_left h⟩
    · have inside : p ∈ (not p).operands := List.mem_singleton.mpr rfl
      rw [written_not, written_not, List.append_assoc, List.append_assoc] at h
      obtain ⟨rfl, rest⟩ := ih p inside (hp.operand inside)
        (hq.operand (List.mem_singleton.mpr rfl)) hr hs (List.append_cancel_left h)
      exact ⟨rfl, rest⟩
    · rw [written_of_lt many, written_of_lt many'] at h
      have between : p.text.toList ++ ')' :: r = q.text.toList ++ ')' :: s := by simpa using h
      obtain ⟨rfl, rest⟩ := text_append_inj (fun u hu => ih u hu (hp.operand hu)) hp hq many many'
        (by rintro x ⟨⟩; rfl) (by rintro x ⟨⟩; rfl) between
      exact ⟨rfl, (List.cons.inj rest).2⟩

theorem text_ne (hp : p.Readable) (hq : q.Readable) (many : 1 < p.operands.length)
    (single : q.operands.length ≤ 1) : p.text ≠ q.text := by
  intro h
  obtain ⟨c, u, us, hc, infixed, operands, several⟩ := exists_connective many
  have first : u.Readable := hp.operand (operands ▸ List.mem_cons_self)
  have same : u.written ++ continued c us = q.written ++ [] := by
    rw [← toList_text hc infixed operands, h, written_of_le single, List.append_nil]
  obtain ⟨w, ws, rfl⟩ := List.exists_cons_of_ne_nil several
  have nothing := (first.separable hq (ends_space _) ends_nil (continued_cons ▸ same)).2
  cases nothing

end Formula

/-- **Printing loses nothing.** Formulas that can be built from variables that are identifiers are
equal if their texts are. -/
theorem text_injective {p q : Formula} (hp : p.Canonical) (hq : q.Canonical)
    (identifiers : ∀ v ∈ p.occurrences ++ q.occurrences, isIdentifier v = true)
    (h : p.text = q.text) : p = q := by
  obtain ⟨own, other⟩ := List.forall_mem_append.mp identifiers
  have hp : p.Readable := ⟨hp, own⟩
  have hq : q.Readable := ⟨hq, other⟩
  have same : p.text.toList ++ [] = q.text.toList ++ [] := by rw [h]
  rcases Nat.lt_or_ge 1 p.operands.length with many | single <;>
    rcases Nat.lt_or_ge 1 q.operands.length with many' | single'
  · exact (Formula.text_append_inj (fun u hu => (hp.operand hu).separable) hp hq many many'
      (by rintro x ⟨⟩) (by rintro x ⟨⟩) same).1
  · exact absurd h (Formula.text_ne hp hq many single')
  · exact absurd h.symm (Formula.text_ne hq hp many' single)
  · rw [← Formula.written_of_le single, ← Formula.written_of_le single'] at same
    exact (hp.separable hq ends_nil ends_nil same).1

/-- A disjunction that is put together in two steps is the one that it is printed as. -/
theorem text_injective_grouped :
    (((Formula.not (.join .and [.var "p", .bot])).or (.var "q1")).or (.var "p")).Canonical ∧
    (Formula.join .or [.not (.join .and [.var "p", .bot]), .var "q1", .var "p"]).Canonical ∧
    (∀ v ∈ (((Formula.not (.join .and [.var "p", .bot])).or (.var "q1")).or
        (.var "p")).occurrences ++
      (Formula.join .or [.not (.join .and [.var "p", .bot]), .var "q1", .var "p"]).occurrences,
      isIdentifier v = true) ∧
    (((Formula.not (.join .and [.var "p", .bot])).or (.var "q1")).or (.var "p")).text =
      "not (p and 0) or q1 or p" ∧
    ((Formula.not (.join .and [.var "p", .bot])).or (.var "q1")).or (.var "p") =
      .join .or [.not (.join .and [.var "p", .bot]), .var "q1", .var "p"] := by
  have conjunction : (Formula.join .and [.var "p", .bot]).Canonical :=
    .join (Nat.le_refl 2) (by simp [Formula.connective?])
      (List.forall_mem_cons.mpr ⟨.var "p", List.forall_mem_singleton.mpr .bot⟩)
  have steps : (((Formula.not (.join .and [.var "p", .bot])).or (.var "q1")).or
      (.var "p")).Canonical :=
    Formula.canonical_or (Formula.canonical_or (.not conjunction) (.var "q1")) (.var "p")
  have once :
      (Formula.join .or [.not (.join .and [.var "p", .bot]), .var "q1", .var "p"]).Canonical :=
    .join (Nat.le_add_left 2 1) (by simp [Formula.connective?])
      (List.forall_mem_cons.mpr ⟨.not conjunction, List.forall_mem_cons.mpr
        ⟨.var "q1", List.forall_mem_singleton.mpr (.var "p")⟩⟩)
  have identifiers : ∀ v ∈ (((Formula.not (.join .and [.var "p", .bot])).or (.var "q1")).or
        (.var "p")).occurrences ++
      (Formula.join .or [.not (.join .and [.var "p", .bot]), .var "q1", .var "p"]).occurrences,
      isIdentifier v = true := by decide +kernel
  have printed : (((Formula.not (.join .and [.var "p", .bot])).or (.var "q1")).or
      (.var "p")).text = "not (p and 0) or q1 or p" := by decide +kernel
  exact ⟨steps, once, identifiers, printed,
    text_injective steps once identifiers (by decide +kernel)⟩

end BeliefRevision
