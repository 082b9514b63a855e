import Mathlib.Data.List.Induction
import TagScript.Editor.Workspace
import TagScript.Proofs.KeyedLists

/-!
# Documents follow the events of an editor

What a workspace holds at a path depends on the texts that the document there was given since it
was last closed, and on nothing else. The latest of them is its text, and its diagnostics are
those of that text. Its tags and rules come from the latest one that can be split into tokens, so
they outlive texts with open brackets but not a close. Texts and results are kept apart, and are
there for the same paths.

Addresses that lead to the same path stand for one document.
-/

namespace TagScript

/-- The text that a change carries, if its form is known. -/
def TextChange.text? : TextChange → Option Bytes
  | .whole text => some text
  | .unknown => none

namespace DocumentEvent

/-- The path of the document that an event is about, if its address can be read. -/
def path? (event : DocumentEvent) : Option Bytes := (Uri.path event.uri).toOption

/-- The text that an event gives to its document. Of several changes the last one of a known form
counts. -/
def text? : DocumentEvent → Option Bytes
  | .opened _ text => some text
  | .changed _ changes => (changes.filterMap TextChange.text?).getLast?
  | .closed _ => none

/-- Whether an event closes the document at a path. -/
def closes (path : Bytes) : DocumentEvent → Bool
  | .closed uri => (DocumentEvent.closed uri).path? = some path
  | _ => false

/-- The text that an event gives to the document at a path. -/
def textAt? (path : Bytes) (event : DocumentEvent) : Option Bytes :=
  if event.path? = some path then event.text? else none

end DocumentEvent

/-- The texts that the document at a path was given since it was last closed, the latest first. -/
def textsSinceClose (path : Bytes) (events : List DocumentEvent) : List Bytes :=
  (events.reverse.takeWhile fun event => !event.closes path).filterMap (·.textAt? path)

/-- Whether a text can be split into tokens. -/
def splits (options : CompileOptions) (text : Bytes) : Bool :=
  (scan (nestingLimit options.maxDepth) text).isOk

/-- What is kept of compiling some texts, the latest first: the result of the latest one, with the
tags and rules of the latest one that can be split. -/
def Compiled.ofTexts (options : CompileOptions) : List Bytes → Option Compiled
  | [] => none
  | text :: before =>
    let analysed := ((text :: before).find? (splits options)).map (compile options)
    some { compile options text with
           tags := analysed.bind (·.tags)
           rules := analysed.elim [] (·.rules) }

/-- A text that cannot be split has neither tags nor rules. -/
theorem compile_of_not_splits {options : CompileOptions} {text : Bytes}
    (h : splits options text = false) :
    (compile options text).tags = none ∧ (compile options text).rules = [] := by
  unfold splits at h
  unfold compile
  cases hscan : scan (nestingLimit options.maxDepth) text with
  | error e => exact ⟨rfl, rfl⟩
  | ok tokens =>
    rw [hscan] at h
    exact absurd h (by simp [Except.isOk, Except.toBool])

/-- A text that can be split has tags, even if none is recorded. -/
theorem compile_of_splits {options : CompileOptions} {text : Bytes}
    (h : splits options text = true) :
    ∃ tags, (compile options text).tags = some tags := by
  unfold splits at h
  unfold compile
  cases hscan : scan (nestingLimit options.maxDepth) text with
  | error e =>
    rw [hscan] at h
    exact absurd h (by simp [Except.isOk, Except.toBool])
  | ok tokens =>
    dsimp only
    split <;> exact ⟨_, rfl⟩

/-- The latest text is the last one of a known form. -/
theorem latestText?_eq (changes : List TextChange) :
    Workspace.latestText? changes = (changes.filterMap TextChange.text?).getLast? := by
  unfold Workspace.latestText?
  rw [List.getLast?_eq_head?_reverse, ← List.filterMap_reverse, List.head?_filterMap]
  rfl

namespace Workspace

variable {w : Workspace} {path other text : Bytes} {event : DocumentEvent}

/-- The text of a closed document is gone, and no other one. -/
theorem text?_close :
    (w.close path).text? other = if other = path then none else w.text? other :=
  KeyedList.lookup_without path w.texts other

/-- The result of a closed document is gone, and no other one. -/
theorem result?_close :
    (w.close path).result? other = if other = path then none else w.result? other :=
  KeyedList.lookup_without path w.results other

/-- An update gives a text to the document at its path alone. -/
theorem text?_update :
    (w.update path text).1.text? other = if other = path then some text else w.text? other :=
  KeyedList.lookup_replace path _ w.texts other

/-- An update gives a result to the document at its path alone. -/
theorem result?_update : (w.update path text).1.result? other =
    if other = path then some (w.compiled path text) else w.result? other :=
  KeyedList.lookup_replace path _ w.results other

/-- The diagnostics that are kept are those of the text, whatever was kept before. -/
theorem diagnostics_compiled :
    (w.compiled path text).diagnostics = (compile w.options text).diagnostics := by
  unfold compiled
  dsimp only
  split <;> rfl

/-- Nothing is kept of the result before when there are tags. -/
theorem compiled_of_tags {tags : TagMap} (h : (compile w.options text).tags = some tags) :
    w.compiled path text = compile w.options text := by
  unfold compiled
  dsimp only
  rw [h]
  cases w.result? path <;> rfl

/-- A new text goes in front of those whose result it replaces. -/
theorem compiled_eq {texts : List Bytes}
    (h : w.result? path = Compiled.ofTexts w.options texts) :
    some (w.compiled path text) = Compiled.ofTexts w.options (text :: texts) := by
  cases hsplits : splits w.options text with
  | true =>
    obtain ⟨tags, htags⟩ := compile_of_splits hsplits
    rw [compiled_of_tags htags, Compiled.ofTexts, List.find?_cons, hsplits]
    rfl
  | false =>
    obtain ⟨htags, hrules⟩ := compile_of_not_splits hsplits
    rw [compiled, Compiled.ofTexts, List.find?_cons, hsplits, h]
    cases texts with
    | nil =>
      generalize compile w.options text = result at htags hrules
      obtain ⟨output, diagnostics, tokens, tags, rules⟩ := result
      obtain rfl : tags = none := htags
      obtain rfl : rules = [] := hrules
      rfl
    | cons before earlier => simp [htags, Compiled.ofTexts]

/-- What an event does to texts and results if its address leads to a path. -/
structure Takes (w : Workspace) (path : Bytes) (event : DocumentEvent) (after : Workspace) :
    Prop where
  sameOptions : after.options = w.options
  nodupTexts : (w.texts.map Prod.fst).Nodup → (after.texts.map Prod.fst).Nodup
  nodupResults : (w.results.map Prod.fst).Nodup → (after.results.map Prod.fst).Nodup
  elsewhere : ∀ other, other ≠ path →
    after.text? other = w.text? other ∧ after.result? other = w.result? other
  text : after.text? path = if event.closes path then none else event.text?.or (w.text? path)
  result : after.result? path = if event.closes path then none
    else (event.text?.map (w.compiled path)).or (w.result? path)

/-- An event gives its text to the document at its path or closes it, and publishes the notices of
the text. -/
theorem handle_spec (hpath : event.path? = some path) :
    ∃ after, w.Takes path event after ∧ w.handle event = .ok (after, event.text?.map fun text =>
      (compile w.options text).diagnostics.map Notice.ofDiagnostic) := by
  have hread : Uri.path event.uri = .ok path := by
    unfold DocumentEvent.path? at hpath
    cases hread : Uri.path event.uri with
    | error e => simp [hread, Except.toOption] at hpath
    | ok found => simpa [hread, Except.toOption] using hpath
  have hupdate (text : Bytes) (hcloses : event.closes path = false)
      (htext : event.text? = some text) : w.Takes path event (w.update path text).1 :=
    { sameOptions := rfl
      nodupTexts := KeyedList.nodup_replace _ _
      nodupResults := KeyedList.nodup_replace _ _
      elsewhere := fun other hother => by simp [text?_update, result?_update, hother]
      text := by simp [text?_update, hcloses, htext]
      result := by simp [result?_update, hcloses, htext] }
  unfold handle
  rw [hread]
  cases event with
  | opened uri text =>
    refine ⟨_, hupdate text rfl rfl, ?_⟩
    simp [bind, Except.bind, pure, Except.pure, update, diagnostics_compiled, DocumentEvent.text?]
  | changed uri changes =>
    have hlatest : latestText? changes = (DocumentEvent.changed uri changes).text? :=
      latestText?_eq changes
    cases htext : (DocumentEvent.changed uri changes).text? with
    | some text =>
      refine ⟨_, hupdate text rfl htext, ?_⟩
      simp [bind, Except.bind, pure, Except.pure, change, hlatest, htext, update,
        diagnostics_compiled]
    | none =>
      refine ⟨w, ⟨rfl, id, id, fun _ _ => ⟨rfl, rfl⟩, ?_, ?_⟩, ?_⟩
      · simp [htext, DocumentEvent.closes]
      · simp [htext, DocumentEvent.closes]
      · simp [bind, Except.bind, pure, Except.pure, change, hlatest, htext]
  | closed uri =>
    refine ⟨w.close path,
      ⟨rfl, KeyedList.nodup_filter _, KeyedList.nodup_filter _, ?_, ?_, ?_⟩, rfl⟩
    · intro other hother
      simp [text?_close, result?_close, hother]
    · simp [text?_close, DocumentEvent.closes, hpath]
    · simp [result?_close, DocumentEvent.closes, hpath]

/-- The workspace after some events. One whose address cannot be read changes nothing. -/
def after (w : Workspace) (events : List DocumentEvent) : Workspace :=
  events.foldl (fun w event => match w.handle event with
    | .ok (next, _) => next
    | .error _ => w) w

/-- One more event whose address can be read. -/
theorem after_concat {next : Workspace} {notices : Option (List Notice)}
    {events : List DocumentEvent} (h : (w.after events).handle event = .ok (next, notices)) :
    w.after (events ++ [event]) = next := by
  rw [after, List.foldl_concat]
  change (match (w.after events).handle event with
    | .ok (next, _) => next
    | .error _ => w.after events) = next
  rw [h]

/-- One more event whose address cannot be read. -/
theorem after_concat_of_path?_eq_none {events : List DocumentEvent} (h : event.path? = none) :
    w.after (events ++ [event]) = w.after events := by
  rw [after, List.foldl_concat]
  change (match (w.after events).handle event with
    | .ok (next, _) => next
    | .error _ => w.after events) = w.after events
  unfold DocumentEvent.path? at h
  cases hread : Uri.path event.uri with
  | error e => simp [handle, hread, bind, Except.bind]
  | ok path => simp [hread, Except.toOption] at h

end Workspace

/-- One more event starts the texts of its path anew, adds one to them, or leaves them alone. -/
theorem textsSinceClose_concat (path : Bytes) (events : List DocumentEvent)
    (event : DocumentEvent) : textsSinceClose path (events ++ [event]) =
      if event.closes path then [] else (event.textAt? path).toList ++
        textsSinceClose path events := by
  rw [textsSinceClose, List.reverse_append, List.reverse_singleton, List.singleton_append,
    List.takeWhile_cons]
  cases hcloses : event.closes path with
  | true => simp
  | false =>
    cases htext : event.textAt? path with
    | none => simp [htext, textsSinceClose]
    | some text => simp [htext, textsSinceClose]

/-- A workspace that holds at each path the latest of the texts since the last close, and what is
kept of compiling these texts. -/
structure Workspace.Follows (w : Workspace) (options : CompileOptions)
    (events : List DocumentEvent) : Prop where
  sameOptions : w.options = options
  nodupTexts : (w.texts.map Prod.fst).Nodup
  nodupResults : (w.results.map Prod.fst).Nodup
  text : ∀ path, w.text? path = (textsSinceClose path events).head?
  result : ∀ path, w.result? path = Compiled.ofTexts options (textsSinceClose path events)

/-- One more event about another path leaves the texts of a path as they are. -/
theorem textsSinceClose_concat_of_path?_ne {path : Bytes} {event : DocumentEvent}
    (h : event.path? ≠ some path) (events : List DocumentEvent) :
    textsSinceClose path (events ++ [event]) = textsSinceClose path events := by
  have hcloses : event.closes path = false := by
    cases event with
    | closed uri => simpa [DocumentEvent.closes] using h
    | _ => rfl
  simp [textsSinceClose_concat, hcloses, DocumentEvent.textAt?, h]

/-- An event that is taken in is followed. -/
theorem Workspace.Takes.follows {w next : Workspace} {options : CompileOptions}
    {events : List DocumentEvent} {path : Bytes} {event : DocumentEvent}
    (htakes : w.Takes path event next) (hpath : event.path? = some path)
    (h : w.Follows options events) : next.Follows options (events ++ [event]) := by
  have hpath_ne : ∀ {other}, other ≠ path → event.path? ≠ some other := fun hother heq =>
    hother (Option.some.inj (heq.symm.trans hpath))
  have htextAt : event.textAt? path = event.text? := if_pos hpath
  refine ⟨htakes.sameOptions.trans h.sameOptions, htakes.nodupTexts h.nodupTexts,
    htakes.nodupResults h.nodupResults, fun other => ?_, fun other => ?_⟩
  · by_cases hother : other = path
    · subst hother
      rw [htakes.text, textsSinceClose_concat, htextAt, h.text]
      cases event.closes other <;> cases event.text? <;> rfl
    · rw [(htakes.elsewhere other hother).1, h.text,
        textsSinceClose_concat_of_path?_ne (hpath_ne hother)]
  · by_cases hother : other = path
    · subst hother
      rw [htakes.result, textsSinceClose_concat, htextAt]
      cases event.closes other with
      | true => rfl
      | false =>
        cases event.text? with
        | none => simpa using h.result other
        | some text =>
          have hresult : w.result? other =
              Compiled.ofTexts w.options (textsSinceClose other events) := by
            rw [h.sameOptions, h.result]
          have hcompiled : some (w.compiled other text) =
              Compiled.ofTexts w.options (text :: textsSinceClose other events) :=
            compiled_eq hresult
          simpa [h.sameOptions] using hcompiled
    · rw [(htakes.elsewhere other hother).2, h.result,
        textsSinceClose_concat_of_path?_ne (hpath_ne hother)]

/-- A workspace that starts empty follows all events. -/
theorem Workspace.follows_after (options : CompileOptions) (events : List DocumentEvent) :
    (Workspace.after { options } events).Follows options events := by
  induction events using List.reverseRecOn with
  | nil => exact ⟨rfl, List.nodup_nil, List.nodup_nil, fun _ => rfl, fun _ => rfl⟩
  | append_singleton events event ih =>
    cases hpath : event.path? with
    | none =>
      have htexts : ∀ path, textsSinceClose path (events ++ [event]) =
          textsSinceClose path events :=
        fun path => textsSinceClose_concat_of_path?_ne (hpath ▸ nofun) events
      rw [after_concat_of_path?_eq_none hpath]
      refine ⟨ih.sameOptions, ih.nodupTexts, ih.nodupResults, fun path => ?_, fun path => ?_⟩
      · rw [htexts, ih.text]
      · rw [htexts, ih.result]
    | some path =>
      obtain ⟨next, htakes, hhandle⟩ := handle_spec (w := Workspace.after { options } events) hpath
      rw [after_concat hhandle]
      exact htakes.follows hpath ih

/-- The documents of a workspace follow what an editor tells about them. After any events texts and
results are there, each once, for the paths that were given a text since their last close. The text
at a path is the latest of these, and its result is that of compiling this text, with the tags and
rules of the latest of them that can be split into tokens. One more event publishes the notices of
the text that it gives, and nothing if it gives none. -/
theorem documents_follow_events (options : CompileOptions) (events : List DocumentEvent) :
    ((Workspace.after { options } events).texts.map Prod.fst).Nodup ∧
    ((Workspace.after { options } events).results.map Prod.fst).Nodup ∧
    (∀ path, path ∈ (Workspace.after { options } events).texts.map Prod.fst ↔
      textsSinceClose path events ≠ []) ∧
    (∀ path, path ∈ (Workspace.after { options } events).results.map Prod.fst ↔
      path ∈ (Workspace.after { options } events).texts.map Prod.fst) ∧
    (∀ path, (Workspace.after { options } events).text? path =
      (textsSinceClose path events).head?) ∧
    (∀ path, (Workspace.after { options } events).result? path =
      Compiled.ofTexts options (textsSinceClose path events)) ∧
    ∀ event path, event.path? = some path →
      (Workspace.after { options } events).handle event =
        .ok (Workspace.after { options } (events ++ [event]), event.text?.map fun text =>
          (compile options text).diagnostics.map Notice.ofDiagnostic) := by
  have hfollows := Workspace.follows_after options events
  have htexts : ∀ path, path ∈ (Workspace.after { options } events).texts.map Prod.fst ↔
      textsSinceClose path events ≠ [] := by
    intro path
    have htext := hfollows.text path
    rw [Workspace.text?] at htext
    rw [KeyedList.mem_keys_iff, htext]
    cases textsSinceClose path events <;> simp
  refine ⟨hfollows.nodupTexts, hfollows.nodupResults, htexts, fun path => ?_, hfollows.text,
    hfollows.result, fun event path hpath => ?_⟩
  · have hresult := hfollows.result path
    rw [Workspace.result?] at hresult
    rw [htexts, KeyedList.mem_keys_iff, hresult]
    cases textsSinceClose path events <;> simp [Compiled.ofTexts]
  · obtain ⟨next, -, hhandle⟩ :=
      Workspace.handle_spec (w := Workspace.after { options } events) hpath
    rw [hhandle, Workspace.after_concat hhandle, hfollows.sameOptions]

/-- A text with an open bracket keeps the tags of the text before it, here given under another
address. Where the document was closed in between there is nothing to keep. -/
theorem documents_follow_events_bracket :
    (DocumentEvent.changed "file:///%61" [.whole "(", .unknown]).path? = some (utf8 "/a") ∧
    ((Workspace.after {} [.opened "file:///a" "const x : N = 1"]).handle
      (.changed "file:///%61" [.whole "(", .unknown])).map (·.2) =
        .ok (some ((compile {} "(").diagnostics.map Notice.ofDiagnostic)) ∧
    (Workspace.after {} [.opened "file:///a" "const x : N = 1",
      .changed "file:///%61" [.whole "(", .unknown]]).text? "/a" = some (utf8 "(") ∧
    ((Workspace.after {} [.opened "file:///a" "const x : N = 1",
      .changed "file:///%61" [.whole "(", .unknown]]).result? "/a").map (·.tags) =
        some (some ⟨[(utf8 "x", utf8 "N")]⟩) ∧
    (Workspace.after {} [.opened "file:///a" "const x : N = 1", .closed "file:///a",
      .opened "file:///a" "("]).text? "/a" = some (utf8 "(") ∧
    ((Workspace.after {} [.opened "file:///a" "const x : N = 1", .closed "file:///a",
      .opened "file:///a" "("]).result? "/a").map (·.tags) = some none := by
  have hpath : (DocumentEvent.changed "file:///%61" [.whole "(", .unknown]).path? =
      some (utf8 "/a") := by
    decide +kernel
  refine ⟨hpath, ?_, ?_, ?_, ?_, ?_⟩
  · rw [(documents_follow_events {} [.opened "file:///a" "const x : N = 1"]).2.2.2.2.2.2 _ _ hpath]
    rfl
  · rw [(documents_follow_events {} _).2.2.2.2.1]
    decide +kernel
  · rw [(documents_follow_events {} _).2.2.2.2.2.1]
    decide +kernel
  · rw [(documents_follow_events {} _).2.2.2.2.1]
    decide +kernel
  · rw [(documents_follow_events {} _).2.2.2.2.2.1]
    decide +kernel

end TagScript
