import Mathlib.Data.List.Nodup
import TemplateSyntax.Proofs.Concatenation
import TemplateSyntax.Proofs.Markup.Closing
import TemplateSyntax.Proofs.Tree.Keeping

/-!
# What messages quote

Messages name tags by their labels, and a tag that was scanned has a name without blanks (`blankless_of_tokenize`). So
in the messages about a template the words stand apart, and no two faults have the same message (`message_injective`):
where a message says which tag was expected, no label can say so in its place.
-/

namespace TemplateSyntax

open Markup (Token)
open Text (isTagBlank)

/-! ### Names of tags -/

/-- None of the blanks that end the name of a tag is in the text. -/
def Text.Blankless (text : String) : Prop :=
  ∀ c ∈ text.toList, isTagBlank c = false

open Text (Blankless)

instance (text : String) : Decidable (Blankless text) :=
  decidable_of_iff ((text.toList.all fun c => !isTagBlank c) = true) (by simp [Blankless])

theorem Text.blankless_append {s t : String} : Blankless (s ++ t) ↔ Blankless s ∧ Blankless t := by
  rw [Blankless, String.toList_append, List.forall_mem_append]
  rfl

namespace Markup

theorem isTagBlank_of_nameRun {cs name rest : List Char} (h : nameRun cs = (name, rest)) :
    ∀ c ∈ name, isTagBlank c = false := by
  induction cs generalizing name with
  | nil =>
    cases h
    exact fun c hc => absurd hc List.not_mem_nil
  | cons c cs ih =>
    obtain ⟨rfl, -⟩ | ⟨tail, rfl, hgoes, htail⟩ := nameRun_cons_eq_iff.mp h
    · exact fun c hc => absurd hc List.not_mem_nil
    · exact List.forall_mem_cons.mpr ⟨(isTagBlank_of_stopsAt_eq_false hgoes).1, ih htail⟩

theorem Lexeme.blankless_tag {cs rest : List Char} {x : Lexeme} (h : Lexeme.read cs = .ok (x, rest)) {start : Nat} :
    ∀ name ∈ (x.token start).tag, Blankless name := by
  intro name hname
  have hview := lexemeView cs
  generalize Lexeme.read cs = k at h hview
  cases hview with
  | openComment => cases h
  | text | comment =>
    cases h
    cases hname
  | region hopens =>
    obtain ⟨r, rfl, -⟩ := readRegion_eq_ok_iff.mp h
    cases hopens with
    | tag _ hrun =>
      cases hname
      rw [Blankless, String.toList_ofList]
      exact isTagBlank_of_nameRun hrun
    | interpolation => cases hname

/-- A blank ends the name of a tag, so there is none in it. -/
theorem blankless_of_tokenize {source : String} {ts : List Token} (h : tokenize source = .ok ts) :
    ∀ t ∈ ts, ∀ name ∈ t.tag, Blankless name := by
  obtain ⟨xs, hrun, rfl⟩ := tokenize_eq_ok_iff.mp h
  intro t ht
  obtain ⟨x, hx, start, rfl⟩ := exists_of_mem_tokensAt ht
  obtain ⟨ds, after, hread⟩ := hrun.exists_read hx
  exact Lexeme.blankless_tag hread

theorem Token.blankless_label {t : Token} (h : ∀ name ∈ t.tag, Blankless name) : Blankless t.label := by
  have htag : Blankless (t.tag.getD "") := by
    cases htag : t.tag with
    | none => decide
    | some name => exact h name htag
  have hquoted {opening : String} (hopening : Blankless opening) :
      Blankless (opening ++ t.tag.getD "" ++ ">") :=
    Text.blankless_append.mpr ⟨Text.blankless_append.mpr ⟨hopening, htag⟩, by decide⟩
  unfold Token.label
  dsimp only
  split
  · exact hquoted (by decide)
  · exact hquoted (by decide)
  · exact hquoted (by decide)
  · exact hquoted (by decide)
  · decide
  · decide
  · decide

end Markup

/-! ### Labels of open nodes -/

/-- A macro call goes by a name without blanks. -/
def Head.HasBlanklessName (head : Head) : Prop :=
  ∀ name params, head = .macroCall name params → Blankless name

theorem Head.hasBlanklessName_of_ofTag {kind : Kind} {t : Token} {params : Option Expr} {head : Head}
    (ht : ∀ name ∈ t.tag, Blankless name) (h : Head.ofTag kind t params = .ok head) : head.HasBlanklessName := by
  rintro name params' rfl
  unfold Head.ofTag Head.given at h
  split at h <;> (try split at h) <;> cases h
  cases htag : t.tag with
  | none => decide
  | some name => exact ht name htag

namespace Node

theorem blankless_directiveName {kind : Kind} (h : kind ≠ .macroCall) : Blankless kind.directiveName := by
  have hall : ∀ k ∈ Kind.all, k ≠ .macroCall → Blankless k.directiveName := by decide
  exact hall kind kind.mem_all h

theorem blankless_label {n : Node} (h : n.head.HasBlanklessName) :
    Blankless n.openLabel ∧ Blankless n.closeLabel := by
  have hquoted {opening name : String} (hopening : Blankless opening) (hname : Blankless name) :
      Blankless (opening ++ name ++ ">") :=
    Text.blankless_append.mpr ⟨Text.blankless_append.mpr ⟨hopening, hname⟩, by decide⟩
  unfold openLabel closeLabel
  split
  · next name params hhead => exact ⟨hquoted (by decide) (h _ _ hhead), hquoted (by decide) (h _ _ hhead)⟩
  · next hne =>
    have hkind : n.kind ≠ .macroCall := by
      intro hkind
      unfold kind at hkind
      cases hhead : n.head with
      | macroCall name params => exact hne name params hhead
      | _ => rw [hhead] at hkind; cases hkind
    have hname := blankless_directiveName hkind
    exact ⟨hquoted (by decide) hname, hquoted (by decide) hname⟩

theorem keeps_hasBlanklessName :
    Node.Keeps (fun t => ∀ name ∈ t.tag, Blankless name) (fun n => n.head.HasBlanklessName) fun _ => True where
  new ht _ hn := ⟨trivial, fun _ => Head.hasBlanklessName_of_ofTag ht hn.head⟩
  chained _ _ := fun _ _ h => nomatch h
  begins _ _ _ hn h := by rwa [h.head_eq]
  add? _ hn _ h := by rwa [add?_head h]
  alternative hn _ _ _ _ := hn
  finished _ _ _ := trivial
  endAt _ _ := trivial

end Node

/-! ### Faults -/

namespace StructuralFault

/-- The labels and names that a message takes from elsewhere. -/
def quotes : StructuralFault → List String
  | .unsupported label | .missingParams label | .unexpectedParams label | .misplaced label | .strayClose label
  | .unclosed label => [label]
  | .mismatchedClose label expected => [label, expected]
  | .duplicateElse kind => [kind.directiveName]
  | _ => []

def Legible (f : StructuralFault) : Prop :=
  ∀ quote ∈ f.quotes, Blankless quote

theorem legible_of_quotes_eq_nil {f : StructuralFault} (h : f.quotes = []) : f.Legible := by
  intro quote hquote
  rw [h] at hquote
  cases hquote

theorem legible_singleton {f : StructuralFault} {label : String} (h : f.quotes = [label]) (hl : Blankless label) :
    f.Legible := by
  intro quote hquote
  rw [h] at hquote
  rwa [List.mem_singleton.mp hquote]

end StructuralFault

section Tags

variable {kind : Kind} {t : Token} {params : Option Expr} {f : StructuralFault} (ht : Blankless t.label)

include ht

theorem Head.legible_of_ofTag (h : Head.ofTag kind t params = .error f) : f.Legible := by
  unfold Head.ofTag Head.given at h
  split at h <;> (try split at h) <;> cases h <;> first
    | exact StructuralFault.legible_singleton rfl ht
    | exact StructuralFault.legible_of_quotes_eq_nil rfl

theorem Node.legible_of_beginPart {n : Node} (h : n.beginPart kind t params = .error f) : f.Legible := by
  unfold Node.beginPart at h
  split at h <;> (try split at h) <;> cases h <;> first
    | exact StructuralFault.legible_singleton rfl ht
    | exact StructuralFault.legible_of_quotes_eq_nil rfl
    | exact StructuralFault.legible_singleton rfl (by decide)

end Tags

namespace Builder

private theorem of_map_eq_error {ε α β : Type} {g : α → β} {x : Except ε α} {e : ε} (h : x.map g = .error e) :
    x = .error e := by
  cases x with
  | error e' => exact congrArg Except.error (Except.error.inj h)
  | ok a => cases h

variable {b b' : Builder} {t : Token} {kind : Kind} {params : Option Expr} {f : StructuralFault}

/-! ### Reports -/

/-- What was reported can be told apart. -/
def Legible (b : Builder) : Prop :=
  ∀ e ∈ b.errors, e.fault.Legible

theorem Legible.congr (h : b.Legible) (herrors : b'.errors = b.errors) : b'.Legible := by
  rw [Legible, herrors]
  exact h

theorem Legible.report (h : b.Legible) (hf : f.Legible) (span : Span) : (b.report f span).Legible :=
  List.forall_mem_append.mpr ⟨h, List.forall_mem_singleton.mpr hf⟩

/-! ### Moves that report nothing -/

theorem add_errors (n : Node) (b : Builder) : (b.add n).errors = b.errors := by
  unfold add
  split
  · rfl
  · split <;> rfl

theorem attach_errors (o : OpenNode) (b : Builder) : (b.attach o).errors = b.errors := by
  unfold attach
  split
  · split
    · rfl
    · exact add_errors _ _
  · exact add_errors _ _

theorem settle_errors (b : Builder) : b.settle.errors = b.errors := by
  unfold settle
  split
  · rfl
  · exact add_errors _ _

theorem release_errors (partStop stop : Nat) (b : Builder) : (b.release partStop stop).errors = b.errors := by
  unfold release
  split
  · rfl
  · exact attach_errors _ _

theorem repeat_release_errors (partStop stop n : Nat) (b : Builder) :
    (Nat.repeat (release partStop stop) n b).errors = b.errors := by
  induction n with
  | zero => rfl
  | succ n ih => exact (release_errors _ _ _).trans ih

theorem continueTop_errors (h : b.continueTop kind t params = .ok b') : b'.errors = b.errors := by
  unfold continueTop at h
  split at h
  · cases h
  · split at h
    · split at h
      · cases h
      · cases h
        rfl
    · obtain ⟨node, -, rfl⟩ := exists_of_map_eq_ok h
      rfl

theorem place_errors (selfClosing : Bool) (n : Node) (b : Builder) : (b.place selfClosing n).errors = b.errors := by
  unfold place
  split
  · rfl
  · split
    · split
      · exact add_errors _ _
      · rfl
    · exact add_errors _ _

theorem accept_errors (h : b.accept kind t params = .ok b') : b'.errors = b.errors := by
  unfold accept at h
  split at h
  · cases h
  · cases h
  · split at h
    · split at h
      · cases h
        rfl
      · cases h
    · split at h
      · exact continueTop_errors h
      · obtain ⟨n, -, rfl⟩ := exists_of_map_eq_ok h
        exact place_errors _ _ _

/-! ### Reports -/

theorem Legible.closeTop (h : b.Legible) (span : Span) : (b.closeTop span).Legible := by
  unfold Builder.closeTop
  dsimp only
  have hclosed (partStop stop : Nat) :
      ((Nat.repeat (release span.start span.start) b.chainLength b).release partStop stop).Legible :=
    h.congr ((release_errors ..).trans (repeat_release_errors ..))
  split
  · exact hclosed _ _
  · split
    · exact (hclosed _ _).report (StructuralFault.legible_of_quotes_eq_nil rfl) _
    · exact hclosed _ _

theorem legible_of_continueTop (ht : Blankless t.label) (h : b.continueTop kind t params = .error f) :
    f.Legible := by
  unfold continueTop at h
  split at h
  · cases h
    exact StructuralFault.legible_singleton rfl ht
  · split at h
    · split at h
      · cases h
        exact StructuralFault.legible_of_quotes_eq_nil rfl
      · cases h
    · exact Node.legible_of_beginPart ht (of_map_eq_error h)

theorem legible_of_accept (ht : Blankless t.label) (h : b.accept kind t params = .error f) : f.Legible := by
  unfold accept at h
  split at h
  · cases h
    exact StructuralFault.legible_singleton rfl ht
  · cases h
    exact StructuralFault.legible_singleton rfl ht
  · split at h
    · split at h
      · cases h
      · cases h
        exact StructuralFault.legible_of_quotes_eq_nil rfl
    · split at h
      · exact legible_of_continueTop ht h
      · exact Head.legible_of_ofTag ht (of_map_eq_error (of_map_eq_error h))

theorem legible_of_close (hstack : ∀ o ∈ b.stack, o.node.head.HasBlanklessName) (ht : Blankless t.label)
    (h : b.close kind t = .error f) : f.Legible := by
  unfold close at h
  split at h
  · cases h
    exact StructuralFault.legible_singleton rfl ht
  · next top below hst =>
    split at h
    · cases h
    · cases h
      have htop := (Node.blankless_label (hstack top (hst ▸ List.mem_cons_self ..))).2
      exact List.forall_mem_cons.mpr ⟨ht, List.forall_mem_singleton.mpr htop⟩

theorem legible_close (hb : b.Legible) (h : b.close kind t = .ok b') : b'.Legible := by
  unfold close at h
  split at h
  · cases h
  · split at h
    · cases h
      exact hb.closeTop t.span
    · cases h

theorem Legible.orReport {made : Except StructuralFault Builder} (hb : b.Legible)
    (hmade : ∀ b', made = .ok b' → b'.Legible) (hf : ∀ f, made = .error f → f.Legible) (span : Span) :
    (b.orReport span made).Legible := by
  cases made with
  | ok b' => exact hmade b' rfl
  | error f => exact hb.report (hf f rfl) span

theorem Legible.push (hb : b.Legible) (hstack : ∀ o ∈ b.settle.stack, o.node.head.HasBlanklessName)
    (ht : Blankless t.label) : (b.push t).2.Legible := by
  have hsettle : b.settle.Legible := hb.congr (settle_errors b)
  cases habsorb : b.absorb? t with
  | some b' =>
    have hpush : b.push t = (none, b') := by rw [Builder.push, habsorb]
    rw [hpush]
    unfold absorb? at habsorb
    split at habsorb
    · cases habsorb
    · split at habsorb
      · cases habsorb
        exact hb.congr (add_errors _ _)
      · cases habsorb
  | none =>
    rw [push_of_absorb?_eq_none habsorb]
    split
    · exact hsettle.report (StructuralFault.legible_singleton rfl ht) t.span
    · split
      · exact hsettle.orReport (fun b' h => legible_close hsettle h) (fun f h => legible_of_close hstack ht h) t.span
      · split
        · exact hsettle
        · exact hsettle.orReport (fun b' h => hsettle.congr (accept_errors h)) (fun f h => legible_of_accept ht h)
            t.span

/-- Whatever tags come, if their names have no blanks then neither has what is quoted. -/
theorem legible_feed {ts : List Token} (hs : b.Sound) (hts : ∀ t ∈ ts, ∀ name ∈ t.tag, Blankless name)
    (hb : b.Legible) (hcarries : b.Carries (fun n => n.head.HasBlanklessName) fun _ => True) :
    (b.feed ts).Legible := by
  induction ts generalizing b with
  | nil => exact hb
  | cons t ts ih =>
    obtain ⟨ht, hts⟩ := List.forall_mem_cons.mp hts
    have hsettled := (settles_settle hs.stack hs.pending).carries Node.keeps_hasBlanklessName hs.stack hcarries
    exact ih (sound_push hs t) hts (hb.push hsettled.stack (Token.blankless_label ht))
      ((pushes_push hs t).carries Node.keeps_hasBlanklessName hs.stack ht hcarries)

theorem legible_of_mem_errors (stop : Nat) {ts : List Token} (hts : ∀ t ∈ ts, ∀ name ∈ t.tag, Blankless name) :
    ∀ e ∈ ((new stop).feed ts).finish.errors, e.fault.Legible := by
  have hs : ((new stop).feed ts).Sound := sound_feed (sound_new stop) ts
  have hcarries := carries_feed Node.keeps_hasBlanklessName (sound_new stop) hts (carries_new stop)
  rw [finish_errors hs]
  refine List.forall_mem_append.mpr ⟨?_, ?_⟩
  · exact legible_feed (sound_new stop) hts (fun e he => absurd he List.not_mem_nil) (carries_new stop)
  · split
    · exact fun e he => absurd he List.not_mem_nil
    · next o ho =>
      have hlabel := (Node.blankless_label (hcarries.stack o (List.mem_of_find?_eq_some ho))).1
      exact List.forall_mem_singleton.mpr (StructuralFault.legible_singleton rfl hlabel)

end Builder

/-! ### Words of a message -/

theorem Kind.injective_of_nodup {f : Kind → String} (h : (Kind.all.map f).Nodup) : Function.Injective f :=
  fun k l => List.inj_on_of_nodup_map h k.mem_all l.mem_all

/-- No two kinds go by the same name in messages. -/
theorem Kind.directiveName_injective : Function.Injective Kind.directiveName :=
  Kind.injective_of_nodup (by decide +kernel)

namespace StructuralFault

/-- The label between back quotes. -/
def quoted (label : String) : String :=
  "`" ++ label ++ "`"

/-- The words of the message. -/
def words : StructuralFault → List String
  | .unsupported label => ["directive", "not", "supported:", quoted label]
  | .missingParams label => [quoted label, "requires", "parameters"]
  | .unexpectedParams label => [quoted label, "does", "not", "take", "parameters"]
  | .misplaced label => [quoted label, "is", "not", "allowed", "here"]
  | .contentBeforeCase =>
    ["unexpected", "content", "in", quotedTag .switch, "before", "the", "first", quotedTag .case]
  | .elseIfAfterElse => [quotedTag .elseIf, "after", quotedTag .otherwise]
  | .duplicateElse kind => ["duplicate", quotedTag .otherwise, "in", quotedTag kind]
  | .duplicateRecover => ["duplicate", quotedTag .recover, "in", quotedTag .attempt]
  | .duplicateDefault => ["duplicate", quotedTag .default, "in", quotedTag .switch]
  | .missingRecover => [quotedTag .attempt, "requires", "a", quotedTag .recover, "branch"]
  | .listShape => [quotedTag .list, "expects", "`<sequence>", "as", "<name>`"]
  | .assignShape scope => [quotedTag (.assign scope), "expects", "assignments", "such", "as", "`x", "=", "1`"]
  | .missingName sort => [quotedTag (.callable sort), "expects", "a", "name"]
  | .escapeShape => [quotedTag (.block .escape), "expects", "`<name>", "as", "<expression>`"]
  | .outputFormatShape => [quotedTag (.block .outputFormat), "expects", "a", "single", "string", "literal"]
  | .importShape => [quotedTag (.single .import), "expects", "`<path>", "as", "<namespace>`"]
  | .settingShape => [quotedTag (.single .setting), "expects", "`name", "=", "value`"]
  | .strayClose label => ["unexpected", "close", "tag", quoted label]
  | .mismatchedClose label expected =>
    ["unexpected", "close", "tag", quoted label ++ ",", "expected", quoted expected]
  | .unclosed label => ["unclosed", "tag", quoted label]

theorem message_eq (f : StructuralFault) : f.message = " ".intercalate f.words := by
  have helse : Kind.otherwise.directiveName = "else" := rfl
  cases f with
  | contentBeforeCase | elseIfAfterElse | duplicateRecover | duplicateDefault | missingRecover | listShape | escapeShape
  | outputFormatShape | importShape | settingShape => rfl
  | unsupported | duplicateElse | strayClose | unclosed =>
    -- the words in front of the quoted one are put together
    delta message
    simp [words, quoted, quotedTag, helse, ← String.append_assoc]
  | missingParams | unexpectedParams | misplaced | assignShape | missingName =>
    -- and here those behind it
    delta message
    simp [words, quoted, quotedTag, String.append_assoc]
  | mismatchedClose label expected =>
    have hfirst : "unexpected close tag `" = "unexpected" ++ " " ++ "close" ++ " " ++ "tag" ++ " " ++ "`" := rfl
    have hbetween : "`, expected `" = "`" ++ "," ++ " " ++ "expected" ++ " " ++ "`" := rfl
    delta message
    simp only [words, quoted, hfirst, hbetween, String.intercalate_cons_cons, String.intercalate_singleton,
      String.append_assoc]

theorem toList_message (f : StructuralFault) : f.message.toList = [' '].intercalate (f.words.map String.toList) := by
  rw [message_eq, String.toList_intercalate]
  rfl

theorem blankless_quoted {label : String} (h : Blankless label) : Blankless (quoted label) :=
  Text.blankless_append.mpr ⟨Text.blankless_append.mpr ⟨by decide, h⟩, by decide⟩

theorem Legible.words {f : StructuralFault} (h : f.Legible) : ∀ w ∈ f.words, Blankless w := by
  cases f with
  | unsupported | missingParams | unexpectedParams | misplaced | strayClose | unclosed =>
    have hlabel := blankless_quoted (h _ (List.mem_singleton_self _))
    simp +decide [StructuralFault.words, hlabel]
  | mismatchedClose label expected =>
    have hlabel := blankless_quoted (h label (List.mem_cons_self ..))
    have hexpected := blankless_quoted (h expected (List.mem_cons_of_mem _ (List.mem_singleton_self _)))
    simp +decide [StructuralFault.words, Text.blankless_append, hlabel, hexpected]
  | duplicateElse kind =>
    have hname : Blankless kind.directiveName := h _ (List.mem_singleton_self _)
    simp +decide [StructuralFault.words, quotedTag, Text.blankless_append, hname]
  | assignShape scope => cases scope <;> decide
  | missingName sort => cases sort <;> decide
  | _ => decide

theorem Legible.splitOn_message {f : StructuralFault} (h : f.Legible) :
    f.message.toList.splitOn ' ' = f.words.map String.toList := by
  rw [toList_message]
  refine List.splitOn_intercalate ' ' (List.forall_mem_map.mpr fun w hw hblank => ?_) ?_
  · exact absurd (h.words w hw ' ' hblank) (by decide)
  · cases f <;> exact List.cons_ne_nil _ _

/-- Two lists of words differ in a word that is no label, or in a label. -/
theorem words_injective : Function.Injective words := by
  intro f g h
  cases f <;> cases g <;> simp_all [words, quoted, quotedTag, Kind.directiveName_injective.eq_iff]

/-- The message tells the fault. -/
theorem message_injective {f g : StructuralFault} (hf : f.Legible) (hg : g.Legible) (h : f.message = g.message) :
    f = g := by
  have hwords : f.words.map String.toList = g.words.map String.toList := by
    rw [← hf.splitOn_message, ← hg.splitOn_message, h]
  exact words_injective (List.map_injective_iff.mpr (fun _ _ => String.toList_inj.mp) hwords)

theorem mem_intercalate_singleton {α : Type} {x a : α} {ls : List (List α)} (h : a ∈ [x].intercalate ls) :
    a = x ∨ ∃ l ∈ ls, a ∈ l := by
  induction ls with
  | nil => simp at h
  | cons l ls ih =>
    cases ls with
    | nil => exact .inr ⟨l, List.mem_singleton_self _, by simpa using h⟩
    | cons m ls =>
      rw [List.intercalate_cons_cons, List.append_assoc, List.mem_append, List.mem_append, List.mem_singleton] at h
      rcases h with hl | rfl | hrest
      · exact .inr ⟨l, List.mem_cons_self .., hl⟩
      · exact .inl rfl
      · exact (ih hrest).imp_right fun ⟨l', hl', ha⟩ => ⟨l', List.mem_cons_of_mem _ hl', ha⟩

/-- The message is on one line. -/
theorem Legible.newline_notMem {f : StructuralFault} (h : f.Legible) : '\n' ∉ f.message.toList := by
  rw [toList_message]
  intro hmem
  rcases mem_intercalate_singleton hmem with hblank | ⟨_, hw, hmem⟩
  · exact absurd hblank (by decide)
  · obtain ⟨w, hword, rfl⟩ := List.mem_map.mp hw
    exact absurd (h.words w hword '\n' hmem) (by decide)

end StructuralFault

/-- What the errors of a program quote has no blanks in it. -/
theorem Template.legible_of_mem_errors {source : String} {basePath : Option String} {template : Template}
    (h : parse source basePath = .ok template) : ∀ e ∈ template.program.errors, e.fault.Legible := by
  obtain ⟨b, htokens, hrun, heq⟩ := parse_eq_ok_iff.mp h
  have hprogram : template.program = b.finish := congrArg Template.program heq
  rw [hprogram, Builder.feed_of_pushAll hrun]
  exact Builder.legible_of_mem_errors source.utf8ByteSize (Markup.blankless_of_tokenize htokens)

end TemplateSyntax
