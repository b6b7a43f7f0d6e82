import Mathlib.Data.List.Induction
import Mathlib.Data.List.Nodup
import SearchRules.Proofs.CommandLine.Grammar
import SearchRules.Proofs.Composition.Run

/-!
# Words

A word of a command line is a group of items, or it leaves an option or an argument open that the next word decides on
(`Reading.after_add`). Items are taken one by one, and all of them are if no two are alike (`takeAll_eq_ok`).
-/

namespace SearchRules.CommandLine

/-! ## Settled readings -/

namespace Reading

variable {s s' : Reading} {level : Level}

/-- A reading with one item more. -/
def take (s : Reading) : Item → Except Refusal Reading
  | .value o text => s.setValue o text
  | .flag o => s.setFlag o
  | .argument text => if text.isEmpty || s.argument.isSome then .error .usage else .ok { s with argument := some text }

/-- A reading with some items more. -/
def takeAll (s : Reading) (items : List Item) : Except Refusal Reading :=
  items.foldlM take s

theorem settle_of_none (h : s.pending = none) : s.settle = .ok s := by
  rw [settle, h]

theorem pending_of_setValue {o : Opt} {text : String} (h : s.setValue o text = .ok s') : s'.pending = s.pending := by
  unfold setValue at h
  split at h
  · cases h
  · split at h
    · split at h
      · cases h
      · cases h; rfl
    · split at h
      · cases h
      · cases h; rfl
    · cases h

theorem pending_of_settle (h : s.settle = .ok s') : s'.pending = none := by
  unfold settle at h
  split at h
  · rename_i hnone
    cases h
    exact hnone
  · cases h
  · exact pending_of_setValue h
  · split at h
    · cases h
    · cases h; rfl

theorem waiting_of_settle (h : s.settle = .ok s') : s.waiting? = none := by
  unfold settle at h
  unfold waiting?
  split at h <;> simp_all

theorem pending_of_setFlag {o : Opt} (h : s.setFlag o = .ok s') : s'.pending = none := by
  unfold setFlag at h
  obtain ⟨s₁, hs, h⟩ := bind_eq_ok.1 h
  have hnone := pending_of_settle hs
  split at h
  · split at h
    · cases h
    · cases h; exact hnone
  · split at h
    · cases h
    · cases h; exact hnone
  · cases h
  · cases h
  · cases h

theorem pending_of_take {item : Item} (hs : s.pending = none) (h : s.take item = .ok s') : s'.pending = none := by
  cases item with
  | value o text => rw [pending_of_setValue h, hs]
  | flag o => exact pending_of_setFlag h
  | argument text =>
    rw [take] at h
    split at h
    · cases h
    · cases h; exact hs

theorem takeAll_nil : s.takeAll [] = .ok s := rfl

theorem takeAll_cons {item : Item} {items : List Item} : s.takeAll (item :: items) = s.take item >>= fun s => s.takeAll items := rfl

theorem takeAll_singleton {item : Item} : s.takeAll [item] = s.take item := by
  rw [takeAll_cons]
  cases s.take item <;> rfl

theorem takeAll_append {items items' : List Item} :
    s.takeAll (items ++ items') = s.takeAll items >>= fun s => s.takeAll items' := by
  rw [takeAll, List.foldlM_append]
  rfl

theorem pending_of_takeAll {items : List Item} (hs : s.pending = none) (h : s.takeAll items = .ok s') : s'.pending = none := by
  induction items generalizing s with
  | nil =>
    cases h
    exact hs
  | cons item items ih =>
    rw [takeAll_cons] at h
    obtain ⟨s₁, htake, h⟩ := bind_eq_ok.1 h
    exact ih (pending_of_take hs htake) h

end Reading

/-! ## Items -/

variable {s : Reading} {items : List Item} {item : Item}

/-- The reading of items that are not given twice. -/
def readingOf (items : List Item) : Reading where
  config := valueOf? .config items
  output := valueOf? .output items
  verbose := decide (.flag .verbose ∈ items)
  force := decide (.flag .force ∈ items)
  argument := argumentOf? items

/-- One item more is read if nothing like it has been. -/
theorem take_readingOf (h : ∀ item ∈ items, item.Sound) (hitem : item.Sound) :
    (readingOf items).take item = .ok s ↔ item.option? ∉ items.map Item.option? ∧ s = readingOf (items ++ [item]) := by
  have hflip : ∀ {s' : Reading}, Except.ok s' = (.ok s : Except Refusal Reading) ↔ s = s' := by
    intro s'
    rw [Except.ok.injEq, eq_comm]
  cases item with
  | value opt text =>
    obtain ⟨hopt, hne⟩ := hitem
    rw [Item.option?, ← valueOf?_eq_none hopt h, Reading.take]
    rcases hopt with rfl | rfl
    · rw [Reading.setValue, if_neg (by simpa using hne)]
      cases hv : valueOf? .config items <;> simp [readingOf, hv, hflip, valueOf?_append, argumentOf?_append]
    · rw [Reading.setValue, if_neg (by simpa using hne)]
      cases hv : valueOf? .output items <;> simp [readingOf, hv, hflip, valueOf?_append, argumentOf?_append]
  | flag opt =>
    have hopt : opt = .verbose ∨ opt = .force := hitem
    rw [Item.option?, ← flag_notMem hopt h, Reading.take, Reading.setFlag, Reading.settle_of_none rfl]
    rcases hopt with rfl | rfl
    · by_cases hv : Item.flag .verbose ∈ items <;>
        simp [readingOf, hv, hflip, valueOf?_append, argumentOf?_append, bind, Except.bind]
    · by_cases hv : Item.flag .force ∈ items <;>
        simp [readingOf, hv, hflip, valueOf?_append, argumentOf?_append, bind, Except.bind]
  | argument text =>
    have hne : text ≠ "" := hitem
    rw [Item.option?, ← argumentOf?_eq_none, Reading.take]
    cases hv : argumentOf? items <;> simp [readingOf, hv, hne, hflip, valueOf?_append, argumentOf?_append]

/-- Items are read if no two of them are alike. -/
theorem takeAll_eq_ok (h : ∀ item ∈ items, item.Sound) :
    ({} : Reading).takeAll items = .ok s ↔ (items.map Item.option?).Nodup ∧ s = readingOf items := by
  induction items using List.reverseRecOn generalizing s with
  | nil => simp [Reading.takeAll, readingOf, valueOf?, argumentOf?, pure, Except.pure, eq_comm]
  | append_singleton items item ih =>
    obtain ⟨hitems, hitem⟩ := List.forall_mem_append.1 h
    have hitem := hitem item (List.mem_singleton_self item)
    rw [Reading.takeAll_append, bind_eq_ok, List.map_append, List.map_singleton, List.nodup_append_comm, List.singleton_append,
      List.nodup_cons]
    constructor
    · rintro ⟨s₁, htake, h⟩
      obtain ⟨hnodup, rfl⟩ := (ih hitems).1 htake
      obtain ⟨hnew, rfl⟩ := (take_readingOf hitems hitem).1 (Reading.takeAll_singleton.symm.trans h)
      exact ⟨⟨hnew, hnodup⟩, rfl⟩
    · rintro ⟨⟨hnew, hnodup⟩, rfl⟩
      exact ⟨_, (ih hitems).2 ⟨hnodup, rfl⟩, Reading.takeAll_singleton.trans ((take_readingOf hitems hitem).2 ⟨hnew, rfl⟩)⟩

/-! ## Options -/

/-- Every option. -/
def Opt.all : List Opt :=
  [.config, .output, .verbose, .force, .help, .version]

theorem Opt.mem_all (o : Opt) : o ∈ Opt.all := by
  cases o <;> decide

/-- In a table of options under keys that differ, an option is found under its key. -/
theorem lookup_options {κ : Type} [BEq κ] [LawfulBEq κ] {key : Opt → κ} (hkey : Function.Injective key) {os : List Opt} {k : κ}
    {o : Opt} : (os.map fun o => (key o, o)).lookup k = some o ↔ k = key o ∧ o ∈ os := by
  induction os with
  | nil => simp
  | cons o' os ih =>
    rw [List.map_cons, List.lookup_cons]
    by_cases h : k = key o'
    · subst h
      rw [beq_self_eq_true, Option.some.injEq, List.mem_cons, hkey.eq_iff]
      exact ⟨fun h => ⟨h, .inl h.symm⟩, And.left⟩
    · rw [beq_false_of_ne h, ih, List.mem_cons]
      refine and_congr_right fun hk => ⟨.inr, fun ho => ho.resolve_left ?_⟩
      rintro rfl
      exact h hk

theorem Level.longOption?_eq_some {level : Level} {name : List Char} {o : Opt} :
    level.longOption? name = some o ↔ name = o.name.toList ∧ level.knows o = true := by
  have hname : Function.Injective Opt.name := by
    intro a b
    cases a <;> cases b <;> simp [Opt.name]
  rw [Level.longOption?, Option.filter_eq_some_iff]
  change (Opt.all.map fun o => (o.name, o)).lookup _ = some o ∧ _ ↔ _
  rw [lookup_options hname, ← String.toList_inj, String.toList_ofList]
  exact and_congr_left fun _ => and_iff_left o.mem_all

theorem Level.shortOption?_eq_some {level : Level} {c : Char} {o : Opt} :
    level.shortOption? c = some o ↔ c = o.letter ∧ level.knows o = true := by
  have hletter : Function.Injective Opt.letter := by
    intro a b
    cases a <;> cases b <;> simp [Opt.letter]
  rw [Level.shortOption?, Option.filter_eq_some_iff]
  change (Opt.all.map fun o => (o.letter, o)).lookup _ = some o ∧ _ ↔ _
  rw [lookup_options hletter]
  exact and_congr_left fun _ => and_iff_left o.mem_all

theorem Level.Valued.hasValue {level : Level} {o : Opt} (h : level.Valued o) : o.hasValue = true := by
  rcases h.2 with rfl | rfl <;> rfl

theorem Level.Flag.hasValue {level : Level} {o : Opt} (h : level.Flag o) : o.hasValue = false := by
  rcases h.2 with rfl | rfl <;> rfl

theorem Level.valued_of_hasValue {level : Level} {o : Opt} (hknows : level.knows o = true) (h : o.hasValue = true) :
    level.Valued o := by
  cases o <;> first | exact ⟨hknows, .inl rfl⟩ | exact ⟨hknows, .inr rfl⟩ | cases h

/-- Only a flag that goes on with the command can be set. -/
theorem Level.flag_of_setFlag {level : Level} {s s' : Reading} {o : Opt} (hknows : level.knows o = true)
    (h : s.setFlag o = .ok s') : level.Flag o := by
  obtain ⟨s₁, -, h⟩ := bind_eq_ok.1 h
  cases o <;> first | exact ⟨hknows, .inl rfl⟩ | exact ⟨hknows, .inr rfl⟩ | cases h

/-! ## Words -/

namespace Reading

variable {s s' s₁ : Reading} {level : Level} {text : String}

theorem add_hyphens {cs : List Char} (h : text.toList = '-' :: '-' :: cs) : s.add level text = s.long level cs := by
  unfold add
  rw [h]
  cases s.waiting? <;> rfl

theorem add_hyphen {c : Char} {cs : List Char} (h : text.toList = '-' :: c :: cs) (hc : c ≠ '-') :
    s.add level text = s.letters level (c :: cs) := by
  have hc := hc.symm
  unfold add
  split <;> simp_all

theorem add_plain (h : Plain text) (hs : s.waiting? = none) : s.add level text = s.plain level text := by
  unfold add
  split <;> simp_all [Plain]

theorem add_waiting {o : Opt} (h : Plain text) (hs : s.waiting? = some o) :
    s.add level text = .ok { s with pending := some (.value o text) } := by
  unfold add
  split <;> simp_all [Plain]

/-- An argument that is no option is left open, where a file is taken and none has been. -/
theorem plain_eq_ok (hs : s.pending = none) : s.plain level text = .ok s₁ ↔
    level.TakesFile ∧ s.argument = none ∧ s₁ = { s with pending := some (.argument text) } := by
  have htakes : (level == .compile || level == .init) = true ↔ level.TakesFile := by simp [Level.TakesFile]
  rw [plain, settle_of_none hs]
  by_cases h : level.TakesFile
  · cases hargument : s.argument <;> simp [htakes.2 h, h, hargument, bind, Except.bind, eq_comm]
  · simp [mt htakes.1 h, h]

/-- An argument that is settled is read as an item. -/
theorem settle_argument (hs : s.pending = none) (h : s.argument = none) :
    ({ s with pending := some (.argument text) } : Reading).settle = s.take (.argument text) := by
  simp only [settle, take, h, ← hs, Option.isSome_none, Bool.or_false]

theorem take_argument (h : s.take (.argument text) = .ok s₁) : s.argument = none ∧ text ≠ "" ∧ s₁.argument = some text := by
  rw [take] at h
  split at h
  · cases h
  · rename_i hcond
    rw [Bool.or_eq_true, not_or] at hcond
    cases h
    exact ⟨by simpa using hcond.2, by simpa using hcond.1, rfl⟩

/-- A word is read as options after two hyphens, as options after one, or as it is. -/
theorem plain_or_hyphen (text : String) :
    Plain text ∨ (∃ cs, text.toList = '-' :: '-' :: cs) ∨ ∃ c cs, text.toList = '-' :: c :: cs ∧ c ≠ '-' := by
  by_cases h : Plain text
  · exact .inl h
  · obtain ⟨c, h⟩ := not_forall.1 h
    obtain ⟨cs, h⟩ := not_forall.1 h
    have h := not_not.1 h
    by_cases hc : c = '-'
    · exact .inr (.inl ⟨cs, hc ▸ h⟩)
    · exact .inr (.inr ⟨c, cs, h, hc⟩)

/-- Nothing is read before what the last word has left open is settled. -/
theorem add_of_settle (h : s.settle = .ok s') : s.add level text = s'.add level text := by
  have hs' := settle_of_none (pending_of_settle h)
  have hflag : ∀ o, s.setFlag o = s'.setFlag o := by
    intro o
    rw [setFlag, setFlag, h, hs']
  rcases plain_or_hyphen text with hplain | ⟨cs, hcs⟩ | ⟨c, cs, hcs, hc⟩
  · rw [add_plain hplain (waiting_of_settle h), add_plain hplain (waiting_of_settle hs'), plain, plain, h, hs']
  · rw [add_hyphens hcs, add_hyphens hcs]
    unfold long
    simp only [h, hs', hflag]
  · rw [add_hyphen hcs hc, add_hyphen hcs hc]
    rw [letters, letters]
    simp only [h, hs', hflag]

/-- Behind a word that has left open what cannot be settled, only the value that it waits for is read. -/
theorem add_of_settle_error {e : Refusal} (h : s.settle = .error e) (hadd : s.add level text = .ok s₁) :
    Plain text ∧ s.waiting? ≠ none := by
  have hflag : ∀ o, s.setFlag o = .error e := by
    intro o
    rw [setFlag, h]
    rfl
  rcases plain_or_hyphen text with hplain | ⟨cs, hcs⟩ | ⟨c, cs, hcs, hc⟩
  · refine ⟨hplain, fun hs => ?_⟩
    rw [add_plain hplain hs, plain, h] at hadd
    split at hadd <;> cases hadd
  · rw [add_hyphens hcs] at hadd
    unfold long at hadd
    simp only [h, hflag] at hadd
    split at hadd
    · cases hadd
    · split at hadd <;> cases hadd
    · split at hadd <;> cases hadd
  · rw [add_hyphen hcs hc, letters] at hadd
    simp only [h, hflag] at hadd
    split at hadd
    · cases hadd
    · split at hadd <;> cases hadd

/-- The letters of flags are read as the flags one by one. -/
theorem letters_flags {os : List Opt} (cs : List Char) (hos : ∀ o ∈ os, level.Flag o) (hs : s.pending = none)
    (h : s.takeAll (os.map .flag) = .ok s') : s.letters level (os.map Opt.letter ++ cs) = s'.letters level cs := by
  induction os generalizing s with
  | nil =>
    cases h
    rfl
  | cons o os ih =>
    have ho := hos o List.mem_cons_self
    rw [List.map_cons, takeAll_cons] at h
    obtain ⟨s₁, hflag, h⟩ := bind_eq_ok.1 h
    rw [List.map_cons, List.cons_append, letters, Level.shortOption?_eq_some.2 ⟨rfl, ho.1⟩]
    simp only [ho.hasValue]
    rw [if_neg Bool.false_ne_true, show s.setFlag o = .ok s₁ from hflag]
    exact ih (fun o h => hos o (List.mem_cons_of_mem _ h)) (pending_of_setFlag hflag) h

/-- The letter of an option that has a value waits for it at the end of a word. -/
theorem letters_option {o : Opt} (hs : s.pending = none) (h : level.Valued o) :
    s.letters level [o.letter] = .ok { s with pending := some (.option o) } := by
  rw [letters, Level.shortOption?_eq_some.2 ⟨rfl, h.1⟩]
  simp only [h.hasValue, if_true, settle_of_none hs]
  rfl

/-- Else what stands behind it is the value, with or without an equals sign between. -/
theorem letters_value {o : Opt} {tail : List Char} (hs : s.pending = none) (h : level.Valued o)
    (htail : tail = '=' :: text.toList ∨ tail = text.toList ∧ tail ≠ [] ∧ tail.head? ≠ some '=') :
    s.letters level (o.letter :: tail) = s.setValue o text := by
  have hset : s.setValue o (String.ofList text.toList) = s.setValue o text := by rw [String.ofList_toList]
  rw [letters, Level.shortOption?_eq_some.2 ⟨rfl, h.1⟩]
  simp only [h.hasValue, if_true, settle_of_none hs]
  rcases htail with rfl | ⟨rfl, hne, hhead⟩
  · exact hset
  · rw [← hset]
    obtain ⟨c, cs, hcs⟩ := List.exists_cons_of_ne_nil hne
    have hc : c ≠ '=' := by
      rintro rfl
      exact hhead (by rw [hcs]; rfl)
    simp [hcs, hc, bind, Except.bind]

/-- Letters that are read are those of flags, and behind them perhaps that of an option with its value or still without. -/
theorem exists_of_letters {cs : List Char} (hs : s.pending = none) (h : s.letters level cs = .ok s₁) :
    ∃ (os : List Opt) (s' : Reading), (∀ o ∈ os, level.Flag o) ∧ s.takeAll (os.map .flag) = .ok s' ∧
      (cs = os.map Opt.letter ∧ s₁ = s' ∨
        ∃ o, level.Valued o ∧
          (cs = os.map Opt.letter ++ [o.letter] ∧ s₁ = { s' with pending := some (.option o) } ∨
            ∃ text tail, cs = os.map Opt.letter ++ o.letter :: tail ∧ s'.setValue o text = .ok s₁ ∧
              (tail = '=' :: text.toList ∨ tail = text.toList ∧ tail.head? ≠ some '='))) := by
  induction cs generalizing s with
  | nil =>
    cases h
    exact ⟨[], _, nofun, rfl, .inl ⟨rfl, rfl⟩⟩
  | cons c cs ih =>
    cases ho : level.shortOption? c with
    | none =>
      rw [letters, ho] at h
      cases h
    | some o =>
      obtain ⟨rfl, hknows⟩ := Level.shortOption?_eq_some.1 ho
      cases hvalue : o.hasValue with
      | true =>
        have hvalued := Level.valued_of_hasValue hknows hvalue
        refine ⟨[], s, nofun, rfl, .inr ⟨o, hvalued, ?_⟩⟩
        cases cs with
        | nil =>
          rw [letters_option hs hvalued] at h
          cases h
          exact .inl ⟨rfl, rfl⟩
        | cons a cs =>
          by_cases ha : a = '='
          · have htail : a :: cs = '=' :: (String.ofList cs).toList := by rw [ha, String.toList_ofList]
            exact .inr ⟨_, _, rfl, (letters_value hs hvalued (.inl htail)).symm.trans h, .inl htail⟩
          · have htail : a :: cs = (String.ofList (a :: cs)).toList := by rw [String.toList_ofList]
            have hhead : (a :: cs).head? ≠ some '=' := by simpa using ha
            have hset := (letters_value hs hvalued (.inr ⟨htail, List.cons_ne_nil a cs, hhead⟩)).symm.trans h
            exact .inr ⟨_, _, rfl, hset, .inr ⟨htail, hhead⟩⟩
      | false =>
        rw [letters, ho] at h
        simp only [hvalue, Bool.false_eq_true, if_false] at h
        obtain ⟨s₂, hflag, h⟩ := bind_eq_ok.1 h
        obtain ⟨os, s', hos, htake, hcs⟩ := ih (pending_of_setFlag hflag) h
        refine ⟨o :: os, s', List.forall_mem_cons.2 ⟨Level.flag_of_setFlag hknows hflag, hos⟩, ?_, ?_⟩
        · rw [List.map_cons, takeAll_cons, take, hflag]
          exact htake
        · simpa using hcs

theorem ne_empty_of_setValue {o : Opt} (h : s.setValue o text = .ok s') : text ≠ "" := by
  rintro rfl
  cases h

/-- What a word leaves: all its items are read, or one of its options waits for a value, or it is an argument that is still open. -/
inductive After (level : Level) (s : Reading) (text : String) : Reading → Prop where
  | items {s' : Reading} {items : List Item} : Group level items [text] → s.takeAll items = .ok s' → After level s text s'
  | waiting {s' : Reading} {items : List Item} {o : Opt} : s.takeAll items = .ok s' → level.Valued o →
      (∀ value, Plain value → value ≠ "" → Group level (items ++ [.value o value]) [text, value]) →
      After level s text { s' with pending := some (.option o) }
  | argument : level.TakesFile → Plain text → s.argument = none → After level s text { s with pending := some (.argument text) }

theorem after_long {cs : List Char} (hs : s.pending = none) (htext : text.toList = '-' :: '-' :: cs)
    (h : s.long level cs = .ok s₁) : After level s text s₁ := by
  unfold long at h
  simp only at h
  split at h
  · cases h
  · rename_i o ho hrest
    obtain ⟨hname, hknows⟩ := Level.longOption?_eq_some.1 ho
    have htext : text = "--" ++ o.name := by
      rw [← String.toList_inj, htext, String.toList_append, ← hname, ← List.append_nil (List.takeWhile _ cs), ← hrest,
        List.takeWhile_append_dropWhile]
      rfl
    split at h
    · rename_i hvalue
      rw [settle_of_none hs] at h
      cases h
      have ho := Level.valued_of_hasValue hknows hvalue
      exact .waiting takeAll_nil ho fun value hplain hne => htext ▸ .apart ho hplain hne
    · have hgroup : Group level [.flag o] [text] := htext ▸ .flag (Level.flag_of_setFlag hknows h)
      exact .items hgroup (takeAll_singleton.trans h)
  · rename_i o c value ho hrest
    obtain ⟨hname, hknows⟩ := Level.longOption?_eq_some.1 ho
    have hc : c = '=' := by
      have hhead := List.head?_dropWhile_not (p := (· != '=')) (l := cs)
      rw [hrest] at hhead
      simpa using hhead
    have htext : text = "--" ++ o.name ++ "=" ++ String.ofList value := by
      rw [← String.toList_inj, htext, String.toList_append, String.toList_append, String.toList_append, ← hname,
        String.toList_ofList]
      have hcs := List.takeWhile_append_dropWhile (p := (· != '=')) (l := cs)
      rw [hrest, hc] at hcs
      nth_rewrite 1 [← hcs]
      simp
    split at h
    · rename_i hvalue
      rw [settle_of_none hs] at h
      have hset : s.setValue o (String.ofList value) = .ok s₁ := h
      have hgroup : Group level [.value o (String.ofList value)] [text] :=
        htext ▸ .joined (Level.valued_of_hasValue hknows hvalue) (ne_empty_of_setValue hset)
      exact .items hgroup (takeAll_singleton.trans hset)
    · cases h

theorem after_letters {c : Char} {cs : List Char} (hs : s.pending = none) (htext : text.toList = '-' :: c :: cs)
    (h : s.letters level (c :: cs) = .ok s₁) : After level s text s₁ := by
  have hword : text = String.ofList ('-' :: c :: cs) := by
    rw [← htext, String.ofList_toList]
  obtain ⟨os, s', hos, htake, ⟨hcs, rfl⟩ | ⟨o, ho, ⟨hcs, rfl⟩ | ⟨value, tail, hcs, hset, htail⟩⟩⟩ := exists_of_letters hs h
  · have hne : os ≠ [] := by
      rintro rfl
      cases hcs
    rw [hword, hcs]
    exact .items (.letters hne hos) htake
  · rw [hword, hcs]
    exact .waiting htake ho fun value hplain hne => .lettersApart hos ho hplain hne
  · rw [hword, hcs]
    refine .items (.lettersJoined hos ho (ne_empty_of_setValue hset) htail) ?_
    rw [takeAll_append, htake]
    exact takeAll_singleton.trans hset

theorem after_add (hs : s.pending = none) (h : s.add level text = .ok s₁) : After level s text s₁ := by
  rcases plain_or_hyphen text with hplain | ⟨cs, hcs⟩ | ⟨c, cs, hcs, hc⟩
  · rw [add_plain hplain (waiting_of_settle (settle_of_none hs))] at h
    obtain ⟨hfile, hnone, rfl⟩ := (plain_eq_ok hs).1 h
    exact .argument hfile hplain hnone
  · exact after_long hs hcs (add_hyphens hcs ▸ h)
  · exact after_letters hs hcs (add_hyphen hcs hc ▸ h)

end Reading

end SearchRules.CommandLine
