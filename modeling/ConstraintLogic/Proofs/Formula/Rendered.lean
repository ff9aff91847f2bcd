import ConstraintLogic.Proofs.Formula.Bindings
import ConstraintLogic.Proofs.Circuit.Inside
/-!
# Formulas read back

A formula shows its bindings with one blank after each word, a colon, and the text of its matrix,
from which reading has taken the blanks. So whatever has been read is read again as it is from the
text that it shows, and its circuit is the circuit of that text, around an evaluator of the matrix.
-/

namespace ConstraintLogic

namespace Text

theorem allBlank_space : AllBlank [' '] :=
  List.forall_mem_singleton.2 (by decide)

theorem not_mem_dropBlanks {c : Char} {cs : List Char} (hc : isBlank c = true) :
    c ∉ dropBlanks cs := by
  intro hmem
  simpa [hc] using (List.mem_filter.1 hmem).2

end Text

namespace Qbf

open Text

variable {bindings : List Binding} {head : List Char} {text : String} {q : Qbf}

/-- A binding as it is shown, without the blank after it. -/
def bindingChars (b : Binding) : List Char :=
  b.quantifier.keyword.toList ++ ([' '] ++ [b.letter])

theorem toList_text (q : Qbf) :
    q.text.toList = (q.bindings.flatMap fun b => bindingChars b ++ [' ']) ++
      ':' :: ' ' :: q.matrix.source.toList := by
  have hbinding (b : Binding) : (bindingText b).toList = bindingChars b ++ [' '] := by
    simp [bindingText, bindingChars, Char.toString]
  simp [text, String.toList_append, String.toList_join, List.flatMap_map, hbinding]

theorem writesBinding_bindingChars {b : Binding} (h : b.letter.isAlpha = true) :
    WritesBinding b (bindingChars b) :=
  ⟨[' '], List.cons_ne_nil _ _, allBlank_space, h, rfl⟩

/-- Of the blanks after the bindings the last one stands before the colon. -/
theorem exists_writesBindings (hne : bindings ≠ [])
    (h : ∀ b ∈ bindings, b.letter.isAlpha = true) :
    ∃ head, WritesBindings bindings head ∧
      (bindings.flatMap fun b => bindingChars b ++ [' ']) = head ++ [' '] := by
  induction bindings with
  | nil => exact absurd rfl hne
  | cons b rest ih =>
    obtain ⟨hb, hrest⟩ := List.forall_mem_cons.1 h
    have hfirst := writesBinding_bindingChars hb
    by_cases hlast : rest = []
    · subst hlast
      exact ⟨bindingChars b, .last hfirst, by simp⟩
    · obtain ⟨head, hhead, hshown⟩ := ih hlast hrest
      refine ⟨bindingChars b ++ ([' '] ++ head),
        .cons hfirst (List.cons_ne_nil _ _) allBlank_space hhead, ?_⟩
      rw [List.flatMap_cons, hshown]
      simp

theorem WritesBindings.isAlpha (h : WritesBindings bindings head) :
    ∀ b ∈ bindings, b.letter.isAlpha = true := by
  induction h with
  | last hb =>
    obtain ⟨-, -, -, halpha, -⟩ := hb
    exact List.forall_mem_singleton.2 halpha
  | cons hb _ _ _ ih =>
    obtain ⟨-, -, -, halpha, -⟩ := hb
    exact List.forall_mem_cons.2 ⟨halpha, ih⟩

/-- The blank between the colon and the matrix is dropped like those of the text read first. -/
theorem parse_space_source {f : Cnf} (h : Cnf.parse text = .ok f) :
    Cnf.parse (String.ofList (' ' :: f.source.toList)) = .ok f := by
  have hsource : dropBlanks (' ' :: f.source.toList) = dropBlanks f.source.toList := rfl
  have hagain := Cnf.parse_source h
  rw [Cnf.parse_eq_ok_iff_spells] at hagain ⊢
  rwa [String.toList_ofList, hsource]

/-- A formula that has been read is read again from the text that it shows. -/
theorem parse_text (h : parse text = .ok q) : parse q.text = .ok q := by
  obtain ⟨⟨_, _, _, rest, _, hbindings, _, _, hnodup, hmatrix, hletters⟩, -⟩ :=
    parse_eq_ok_iff_hasForm.1 h
  obtain ⟨head, hhead, hshown⟩ :=
    exists_writesBindings (isProper_of_parse h).bindings_ne_nil hbindings.isAlpha
  have htext : q.text.toList = [] ++ (head ++ ([' '] ++ ':' :: ' ' :: q.matrix.source.toList)) := by
    rw [toList_text, hshown]
    simp
  have hstart : AllBlank [] := List.forall_mem_nil _
  have hform : HasForm q.text q :=
    ⟨[], head, [' '], _, hstart, hhead, allBlank_space, htext, hnodup,
      parse_space_source hmatrix, hletters⟩
  refine parse_eq_ok_iff_hasForm.2 ⟨hform, ?_⟩
  rw [dropWhile_ne_colon hstart hhead allBlank_space htext, Cnf.source_of_parse hmatrix,
    String.toList_ofList]
  have hline : '\n' ∉ dropBlanks rest := not_mem_dropBlanks (by decide)
  simpa using hline

end Qbf

namespace Circuit

variable {text : String} {q : Qbf} {g built : Graph} {scope : Ident} {offset : Point}

/-- Wherever a formula is compiled into, the evaluator of the circuit is one of its matrix. -/
theorem exists_evaluator_of_compileInto (hq : Qbf.parse text = .ok q) {circuit : Circuit}
    (h : (compileInto scope offset text).run g = .ok circuit built) :
    ∃ c, built.components[circuit.formula]? = some c ∧ c.gadget = .evaluator q.matrix := by
  obtain ⟨q', hq', rfl⟩ := exists_parse_of_compileInto h
  obtain rfl := Except.ok.inj (hq.symm.trans hq')
  have hproper := Qbf.isProper_of_parse hq
  have hnames : circuit = within scope q := by
    rw [run_compileInto, hq] at h
    cases hbuild : (build scope offset q).run g <;> simp only [hbuild] at h <;> cases h
    rfl
  obtain ⟨c, hc, hevaluator⟩ := (shows_start hproper).evaluator
  have hadded : (g.withParts scope offset (plan q)).HasCopy scope
      ((∅ : Graph).withParts .root .origin (plan q)) := hasCopy_withParts (coherent_plan hproper)
  obtain ⟨position, hcopy⟩ := hadded.component _ c hc
  rw [hnames]
  exact ⟨c.within scope position, hcopy, hevaluator.gadget_eq⟩

/-- Reading back what was read changes nothing: neither the matrix nor the formula, nor the circuit
that it is compiled into, wherever that is. -/
theorem rendered_reads_back (text : String) :
    (∀ f, Cnf.parse text = .ok f → Cnf.parse f.source = .ok f) ∧
      ∀ q, Qbf.parse text = .ok q →
        Qbf.parse q.text = .ok q ∧
        (∀ scope offset, compileInto scope offset q.text = compileInto scope offset text) ∧
        (∃ alone, compile q.text = .ok alone) ∧
        ∀ scope offset g circuit built,
          (compileInto scope offset q.text).run g = .ok circuit built →
            ∃ c, built.components[circuit.formula]? = some c ∧ c.gadget = .evaluator q.matrix := by
  refine ⟨fun f hf => Cnf.parse_source hf, fun q hq => ?_⟩
  have hagain := Qbf.parse_text hq
  refine ⟨hagain, fun scope offset => ?_, ⟨_, compile_of_parse hagain⟩, ?_⟩
  · rw [compileInto, compileInto, hagain, hq]
  · intro scope offset g circuit built hrun
    exact exists_evaluator_of_compileInto hagain hrun

/-- The matrix has parentheses that mean nothing and the text has blanks of many kinds. -/
def ornate : Qbf where
  bindings := [⟨.existential, 'y'⟩, ⟨.universal, 'x'⟩]
  matrix := { Qbf.copycat.matrix with source := "((x||!y))&&(!x||(y))" }

theorem parse_ornate :
    Qbf.parse "\texists  y\nforall x:( (x || !y) ) &&\t(!x||(y))" = .ok ornate := by
  have hy : Qbf.WritesBinding ⟨.existential, 'y'⟩ "exists  y".toList :=
    ⟨[' ', ' '], List.cons_ne_nil _ _, by simp [Text.AllBlank, Text.isBlank, Text.blankRanges],
      by decide, by decide +kernel⟩
  have hx : Qbf.WritesBinding ⟨.universal, 'x'⟩ "forall x".toList :=
    ⟨[' '], List.cons_ne_nil _ _, Text.allBlank_space, by decide, by decide +kernel⟩
  have hline : Text.AllBlank ['\n'] := List.forall_mem_singleton.2 (by decide)
  have htab : Text.AllBlank ['\t'] := List.forall_mem_singleton.2 (by decide)
  refine Qbf.parse_eq_ok_iff_hasForm.2 ⟨⟨['\t'], "exists  y\nforall x".toList, [],
    "( (x || !y) ) &&\t(!x||(y))".toList, htab, ?_, List.forall_mem_nil _, by decide +kernel,
    by decide, rfl, ?_⟩, by decide +kernel⟩
  · exact .cons hy (List.cons_ne_nil _ _) hline (.last hx)
  · simp [ornate, Qbf.copycat, or_comm]

theorem rendered_reads_back_ornate :
    Qbf.parse "\texists  y\nforall x:( (x || !y) ) &&\t(!x||(y))" = .ok ornate ∧
      Cnf.parse "((x||!y))&&(!x||(y))" = .ok ornate.matrix ∧
      Qbf.parse "exists y forall x : ((x||!y))&&(!x||(y))" = .ok ornate ∧
      ∃ circuit built c,
        (compileInto ⟨["inner"]⟩ .origin "exists y forall x : ((x||!y))&&(!x||(y))").run
          Graph.loneUniversal = .ok circuit built ∧
        built.components[circuit.formula]? = some c ∧ c.gadget = .evaluator ornate.matrix := by
  have hshown : ornate.text = "exists y forall x : ((x||!y))&&(!x||(y))" := by decide +kernel
  have hmatrix := (rendered_reads_back "( (x || !y) ) &&\t(!x||(y))").1 ornate.matrix rfl
  obtain ⟨hagain, -, -, hevaluator⟩ := (rendered_reads_back _).2 ornate parse_ornate
  obtain ⟨circuit, built, hbuilt⟩ : ∃ circuit built,
      (compileInto ⟨["inner"]⟩ .origin ornate.text).run Graph.loneUniversal = .ok circuit built :=
    exists_compileInto hagain (by decide +kernel)
  obtain ⟨c, hc, hgadget⟩ := hevaluator _ _ _ _ _ hbuilt
  rw [hshown] at hagain hbuilt
  exact ⟨parse_ornate, hmatrix, hagain, circuit, built, c, hbuilt, hc, hgadget⟩

end Circuit

end ConstraintLogic
