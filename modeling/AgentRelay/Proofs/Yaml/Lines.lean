import AgentRelay.Proofs.Except
import AgentRelay.Proofs.Yaml.Sheet
import AgentRelay.Yaml.Writer

/-
  The lines of a written mapping.

  No line of a YAML document that is written here starts with three dashes, no
  character in it is a carriage return, and the last line has an end
  (`exists_lines_of_write`). So a document can stand between two rules of three
  dashes and is found there again.
-/

namespace AgentRelay.Yaml

/-! ## Values on a sheet -/

theorem inLine_digitsOf (n : Nat) : InLine (Number.digitsOf n) := fun c hc => by
  have hmem : c ∈ Nat.toDigits 10 n := by simpa [Number.digitsOf, Nat.repr] using hc
  have hdigit : c.isDigit = true := Nat.isDigit_of_mem_toDigits (by decide) (by decide) hmem
  exact ⟨fun he => absurd (he ▸ hdigit) (by decide), fun he => absurd (he ▸ hdigit) (by decide)⟩

theorem inLine_padLeft (width : Nat) {cs : List Char} (h : InLine cs) :
    InLine (Number.padLeft width cs) := by
  refine InLine.append (fun c hc => ?_) h
  rw [List.eq_of_mem_replicate hc]
  decide

theorem inLine_shortTag (t : Tag) : InLine (shortTag t) := by
  have hnames : ∀ e ∈ Tag.names, InLine e.1.toList := by decide
  unfold shortTag
  split
  · exact (hnames _ (List.mem_of_find?_eq_some ‹_›)).cons (by decide) (by decide) |>.cons
      (by decide) (by decide)
  · exact InLine.nil

/-- A tag leaves the line as open as it was. -/
theorem Sheet.Open.tag {s : Sheet} (h : s.Open) (t : Tag) :
    (Sheet.mark (shortTag t) true false s).Open := by
  have htag := inLine_shortTag t
  unfold shortTag at htag ⊢
  split
  · rename_i e he
    rw [he] at htag
    exact (h.mark (by decide) htag true false).opens
  · unfold Sheet.mark
    obtain ⟨l, hl, hfree⟩ := h
    split
    · refine ⟨l, ?_, hfree⟩
      have hput := hl.put InLine.nil
      rw [List.append_nil] at hput
      exact hput.congr rfl
    · exact ⟨_, (hl.put (by decide)).congr rfl, free_of_started_append hfree (by decide)⟩

namespace Writer

variable {w : Writer} {n : Nat}

theorem inLine_name {o : Origin} {name : List Char} (h : w.name? o = some name) :
    InLine name := by
  unfold name? at h
  obtain ⟨i, -, h⟩ := Option.bind_eq_some_iff.mp h
  obtain ⟨k, -, h⟩ := Option.bind_eq_some_iff.mp h
  obtain rfl := Option.some.inj h
  exact ((inLine_padLeft 3 (inLine_digitsOf _)).cons (by decide) (by decide)).cons (by decide)
    (by decide)

/-- What holds of a sheet once a mark was put, and what writing a node's value makes of
it, holds of the node. -/
theorem of_node {P Q : Sheet → Prop} (hP : ∀ s, P s → s.Open) (hbegun : ∀ s, s.Begun → P s)
    (hdone : ∀ s, s.Begun → Q s) (o : Origin) {body : Writer → Writer}
    (hbody : ∀ w : Writer, P w.sheet → Q (body w).sheet) (h : P w.sheet) :
    Q (w.node o body).sheet := by
  unfold node
  split
  · exact hbody w h
  · rename_i name hname
    have hmark (c : Char) (hc : c ≠ '-') (hin : InLine [c]) :
        (Sheet.mark (c :: name) true false w.sheet).Begun :=
      (hP _ h).mark hc (InLine.append hin (inLine_name hname)) true false
    split
    · exact hdone _ (hmark '*' (by decide) (by decide))
    · exact hbody _ (hbegun _ (hmark '&' (by decide) (by decide)))

/-- What a scalar in a style must be like. -/
def Style.Suits (simpleKey : Bool) (x : Written) : Style → Prop
  | .plain => (Analysis.of x.text).plain = true
  | .single => (Analysis.of x.text).single = true
  | .double => True
  | .bar => simpleKey = false ∧ (Analysis.of x.text).block = true

theorem style_suits (simpleKey : Bool) (x : Written) : (style simpleKey x).Suits simpleKey x := by
  unfold style
  dsimp only
  split
  · exact trivial
  · split
    · split
      · rename_i hblock
        rw [Bool.and_eq_true, Bool.not_eq_true'] at hblock
        exact hblock
      · exact trivial
    · split
      · rename_i hplain
        exact hplain.2.2
      · split
        · rename_i hsingle
          rw [Bool.and_eq_true] at hsingle
          exact hsingle.1
        · exact trivial

theorem inLine_splitOn {cs l : List Char} (hcs : ∀ c ∈ cs, Analysis.isSpecial c = false)
    (hl : l ∈ Text.splitOn '\n' cs) : InLine l := by
  induction cs generalizing l with
  | nil =>
    rw [List.mem_singleton.mp hl]
    exact InLine.nil
  | cons c cs ih =>
    obtain ⟨hc, hcs⟩ := List.forall_mem_cons.mp hcs
    unfold Text.splitOn at hl
    by_cases hn : c = '\n'
    · rw [if_pos hn] at hl
      rcases List.mem_cons.mp hl with rfl | hl
      · exact InLine.nil
      · exact ih hcs hl
    · rw [if_neg hn] at hl
      have hr := Analysis.ne_return_of_not_special hc
      generalize hps : Text.splitOn '\n' cs = ps at hl ih
      cases ps with
      | nil =>
        rw [List.mem_singleton.mp hl]
        exact InLine.nil.cons hn hr
      | cons p ps =>
        rcases List.mem_cons.mp hl with rfl | hl
        · exact (ih hcs List.mem_cons_self).cons hn hr
        · exact ih hcs (List.mem_cons_of_mem _ hl)

/-- What holds of a begun line, or where no key is written of a fresh one, and of the plain
text, holds of a scalar in its style. -/
theorem of_written {Q : Sheet → Prop} {simpleKey : Bool} {x : Written} (hn : 0 < n)
    (hbegun : ∀ s, s.Begun → Q s) (hfresh : ∀ s, simpleKey = false → s.Fresh → Q s)
    (hplain : (Analysis.of x.text).plain = true → Q (Sheet.plain n (!simpleKey) x.text w.sheet))
    (h : w.sheet.Open) : Q (written simpleKey n x w).sheet := by
  have htagged (b : Bool) : Sheet.Open
      (if b then w.on (Sheet.mark (shortTag x.tag) true false) else w).sheet := by
    cases b with
    | true => exact h.tag x.tag
    | false => exact h
  unfold written
  dsimp only
  have hsuits := style_suits simpleKey x
  cases hstyle : style simpleKey x with
  | plain =>
    rw [hstyle] at hsuits
    exact hplain hsuits
  | single =>
    rw [hstyle] at hsuits
    exact hbegun _ ((htagged _).single hn _ (Analysis.not_special_of_single hsuits))
  | double => exact hbegun _ ((htagged _).double hn _ _)
  | bar =>
    rw [hstyle] at hsuits
    obtain ⟨hkey, hblock⟩ := hsuits
    refine hfresh _ hkey ((htagged _).bar hn fun l hl => ?_)
    exact inLine_splitOn (Analysis.not_special_of_block hblock) (List.dropLast_subset _ hl)

/-- A scalar behind something leaves the sheet ready for an entry. -/
theorem ready_scalar (indent : Nat) (s : Scalar) (h : w.sheet.Behind) :
    (w.scalar false indent s).sheet.Ready := by
  unfold scalar
  split
  · exact .inr h
  · refine of_node (P := Sheet.Behind) (fun _ => Sheet.Behind.opens) (fun _ => .inl)
      (fun _ => Sheet.Begun.ready) _ (fun w h => ?_) h
    exact of_written (Nat.succ_pos _) (fun _ => Sheet.Begun.ready) (fun _ _ => .inl)
      (fun hp => .inr (h.plain (Nat.succ_pos _) _ (Analysis.inLine_of_plain hp))) h.opens

/-- A key on a line of its own does not make the line a rule. -/
theorem open_scalar (indent : Nat) (s : Scalar) (h : w.sheet.Fresh ∨ w.sheet.Begun) :
    (w.scalar true indent s).sheet.Open := by
  have hopen (s : Sheet) (h : s.Fresh ∨ s.Begun) : s.Open :=
    h.elim Sheet.Fresh.opens Sheet.Begun.opens
  unfold scalar
  split
  · exact hopen _ h
  · refine of_node (P := fun s => s.Fresh ∨ s.Begun) hopen (fun _ => .inr)
      (fun _ => Sheet.Begun.opens) _ (fun w h => ?_) h
    refine of_written (Nat.succ_pos _) (fun _ => Sheet.Begun.opens)
      (fun _ hkey => absurd hkey (by decide)) (fun hp => ?_) (hopen _ h)
    rcases h with h | h
    · exact h.plain (Analysis.inLine_of_plain hp) (Analysis.free_of_plain hp)
    · exact (Sheet.Behind.plain (Nat.succ_pos _) _ (Analysis.inLine_of_plain hp) (.inl h)).opens

/-- Behind a key and its colon a line has begun. -/
theorem begun_key (indent : Nat) (k : Scalar) (h : w.sheet.Ready) :
    (w.key indent k).sheet.Begun := by
  have hindented := h.indented indent
  have hopen := hindented.elim Sheet.Fresh.opens Sheet.Begun.opens
  unfold key
  dsimp only
  split
  · exact (open_scalar indent k hindented).mark (by decide) (by decide) false false
  · have hmark : Sheet.Begun (Sheet.mark ['?'] true true (Sheet.indentTo indent w.sheet)) :=
      hopen.mark (by decide) (by decide) true true
    have hscalar := ready_scalar (w := (w.on (Sheet.indentTo indent)).on
      (Sheet.mark ['?'] true true)) indent k (.inl hmark)
    have hcolon := (hscalar.indented indent).elim Sheet.Fresh.opens Sheet.Begun.opens
    exact hcolon.mark (by decide) (by decide) true true

theorem begun_brackets {opening closing : Char} (ho : InLine [opening]) (hdash : opening ≠ '-')
    (hc : InLine [closing]) (h : w.sheet.Open) : (brackets opening closing w).sheet.Begun :=
  Sheet.Begun.mark ((h.mark hdash ho true false).congr rfl rfl) hc false false

theorem ready_members (indent : Nat) (xs : List Scalar) (w : Writer) (h : w.sheet.Ready) :
    (xs.foldl (fun w s => (w.key indent s).scalar false indent .null) w).sheet.Ready := by
  induction xs generalizing w with
  | nil => exact h
  | cons x xs ih => exact ih _ (ready_scalar indent .null (.inl (begun_key indent x h)))

mutual

theorem ready_value (asValue : Bool) (indent : Nat) :
    (v : Value) → (w : Writer) → w.sheet.Behind → (value asValue indent v w).sheet.Ready
  | .scalar s, w, h => ready_scalar indent s h
  | .seq o xs, w, h => by
    unfold value
    refine of_node (fun _ => Sheet.Behind.opens) (fun _ => .inl) (fun _ => Sheet.Begun.ready) o
      (fun w h => ?_) h
    dsimp only
    split
    · exact (begun_brackets (by decide) (by decide) (by decide) h.opens).ready
    · exact ready_items _ xs w (.inr h)
  | .tuple o xs, w, h => by
    unfold value
    refine of_node (fun _ => Sheet.Behind.opens) (fun _ => .inl) (fun _ => Sheet.Begun.ready) o
      (fun w h => ?_) h
    dsimp only
    split
    · exact (begun_brackets (by decide) (by decide) (by decide) h.opens).ready
    · exact ready_items _ xs w (.inr h)
  | .loop _ o, w, h => by
    unfold value
    exact of_node (fun _ => Sheet.Behind.opens) (fun _ => .inl) (fun _ => Sheet.Begun.ready) o
      (fun _ h => .inr h) h
  | .set o xs, w, h => by
    unfold value
    refine of_node (fun _ => Sheet.Behind.opens) (fun _ => .inl) (fun _ => Sheet.Begun.ready) o
      (fun w h => ?_) h
    have hmark : Sheet.Begun (Sheet.mark (shortTag .set) true false w.sheet) :=
      h.opens.mark (c := '!') (by decide) (by decide) true false
    dsimp only
    split
    · exact (begun_brackets (by decide) (by decide) (by decide) hmark.opens).ready
    · exact ready_members _ xs _ hmark.ready
  | .map o es, w, h => by
    unfold value
    refine of_node (fun _ => Sheet.Behind.opens) (fun _ => .inl) (fun _ => Sheet.Begun.ready) o
      (fun w h => ?_) h
    split
    · exact (begun_brackets (by decide) (by decide) (by decide) h.opens).ready
    · exact ready_entries _ es w (.inr h)

theorem ready_items (indent : Nat) :
    (xs : List Value) → (w : Writer) → w.sheet.Ready → (items indent xs w).sheet.Ready
  | [], _, h => h
  | x :: xs, w, h => by
    unfold items
    have hindented : (Sheet.indentTo indent w.sheet).Ready :=
      (h.indented indent).elim .inl Sheet.Begun.ready
    exact ready_items indent xs _ (ready_value false indent x _ hindented.dash)

theorem ready_entries (indent : Nat) :
    (es : List (Scalar × Value)) → (w : Writer) → w.sheet.Ready →
      (entries indent es w).sheet.Ready
  | [], _, h => h
  | (k, v) :: es, w, h => by
    unfold entries
    exact ready_entries indent es _ (ready_value true indent v _ (.inl (begun_key indent k h)))

end

end Writer

/-- What is written is made of lines with their ends, none of which starts like a rule. -/
theorem exists_lines_of_write {m : Mapping} {text : String} (h : write m = .ok text) :
    ∃ lines, (∀ l ∈ lines, IsLine l) ∧ text.toList = whole lines := by
  unfold write at h
  obtain ⟨-, -, h⟩ := exists_of_bind_eq_ok h
  obtain rfl := Except.ok.inj h
  have hstart (named : List Identity) : Sheet.Ready (Writer.sheet ⟨Sheet.empty, named, []⟩) :=
    .inl Sheet.fresh_empty
  have hready (named : List Identity) : Sheet.Ready
      (if m.isEmpty then Writer.brackets '\x7b' '\x7d' ⟨Sheet.empty, named, []⟩
        else Writer.entries 0 m ⟨Sheet.empty, named, []⟩).sheet := by
    split
    · exact (Writer.begun_brackets (by decide) (by decide) (by decide) (hstart named).opens).ready
    · exact Writer.ready_entries 0 m _ (hstart named)
  obtain ⟨-, lines, hlines, hall⟩ := (hready _).indentToZero.holds
  exact ⟨lines, hlines, by rw [String.toList_ofList, hall, List.append_nil]⟩

end AgentRelay.Yaml
