import AgentRelay.Proofs.Except
import AgentRelay.Proofs.Value.Origins
import AgentRelay.Toml.Document

/-
  The origins in a TOML document.

  A table or a list that is read from TOML is no node of a document, since nothing in
  TOML can stand at two places (`bare_readDocument`). Every step of the reading puts
  bare values into bare values.
-/

namespace AgentRelay.Toml

/-- The origin is no node of a document. -/
def Bare (o : Origin) : Prop := ∀ doc n, o ≠ .node doc n

theorem bare_own : Bare .own := nofun

theorem bare_inlineTable : Bare .inlineTable := nofun

/-- What a reading comes to has a property. -/
def Yields {α : Type} (r : Except Fault α) (P : α → Prop) : Prop := ∀ a, r = .ok a → P a

namespace Yields

variable {α β : Type} {P : α → Prop} {Q : β → Prop}

theorem any (r : Except Fault α) : Yields r fun _ => True := fun _ _ => trivial

theorem ok {a : α} (h : P a) : Yields (.ok a) P := fun _ ha => Except.ok.inj ha ▸ h

theorem pure {a : α} (h : P a) : Yields (pure a) P := ok h

theorem error (e : Fault) : Yields (.error e) P := fun _ ha => nomatch ha

theorem throw (e : Fault) : Yields (throw e) P := error e

theorem bind {r : Except Fault α} {f : α → Except Fault β} (h : Yields r P)
    (hf : ∀ a, P a → Yields (f a) Q) : Yields (r >>= f) Q := fun b hb => by
  obtain ⟨a, ha, hb⟩ := exists_of_bind_eq_ok hb
  exact hf a (h a ha) b hb

theorem after {r : Except Fault α} {f : α → Except Fault β} (hf : ∀ a, Yields (f a) Q) :
    Yields (r >>= f) Q := bind (any r) fun a _ => hf a

end Yields

/-! ## Tables -/

theorem bare_mapping {m : Mapping} (h : m.From Bare) : (Value.mapping m).From Bare :=
  ⟨bare_own, Value.fromEntries_iff.mpr h⟩

theorem bare_list {xs : List Value} (h : ∀ x ∈ xs, x.From Bare) : (Value.list xs).From Bare :=
  ⟨bare_own, Value.fromAll_iff.mpr h⟩

theorem bare_text (s : String) : (Scalar.text s).From Bare := trivial

theorem bare_phrase (p : Phrase) : (Value.phrase p).From Bare := by
  cases p <;> trivial

theorem bare_empty : (Value.mapping []).From Bare :=
  bare_mapping fun _ h => absurd h List.not_mem_nil

/-- What is found behind a path of keys is put back with what was made of it. -/
theorem yields_enter {α : Type} {f : Value → Except Fault (Value × α)}
    (hf : ∀ v, v.From Bare → Yields (f v) fun r => r.1.From Bare) (path : List String) {v : Value}
    (hv : v.From Bare) : Yields (enter f path v) fun r => r.1.From Bare := by
  induction path generalizing v with
  | nil => exact hf v hv
  | cons key path ih =>
    cases v with
    | map o m =>
      have hm := Value.fromEntries_iff.mp hv.2
      have hinner : ((Mapping.get? m (.text key)).getD (Value.mapping [])).From Bare := by
        cases hget : Mapping.get? m (.text key) with
        | none => exact bare_empty
        | some w => exact hm.get? hget
      unfold enter
      refine Yields.bind (ih hinner) fun r hr => Yields.pure ?_
      exact ⟨hv.1, Value.fromEntries_iff.mpr (hm.set (bare_text key) hr)⟩
    | _ => exact Yields.error _

theorem yields_addKey {key : String} {v table : Value} (hv : v.From Bare)
    (ht : table.From Bare) : Yields (addKey key v table) (Value.From Bare) := by
  cases table with
  | map o m =>
    have hset := (Value.fromEntries_iff.mp ht.2).set (bare_text key) hv
    rw [addKey]
    split
    · exact Yields.error _
    · exact Yields.ok ⟨ht.1, Value.fromEntries_iff.mpr hset⟩
  | _ => exact Yields.error _

/-! ## Values -/

/-- Items, tables and lines that are read with some fuel hold bare values. -/
structure ReadsBare (fuel : Nat) : Prop where
  item : ∀ room strict cs, Yields (readItem fuel room strict cs) fun r => r.1.From Bare
  items : ∀ room kind items, Yields (readItems fuel room kind items) fun xs =>
    ∀ x ∈ xs, x.From Bare
  table : ∀ room line table, table.From Bare →
    Yields (readTable fuel room line table) (Value.From Bare)
  entries : ∀ room entries table, table.From Bare →
    Yields (readEntries fuel room entries table) (Value.From Bare)
  line : ∀ room line table, table.From Bare →
    Yields (readLine fuel room line table) fun r => r.1.From Bare

namespace ReadsBare

/-- Without fuel nothing is read. -/
theorem zero : ReadsBare 0 where
  item _ _ _ := by rw [readItem]; exact Yields.error _
  items _ _ _ := by rw [readItems]; exact Yields.error _
  table _ _ _ _ := by rw [readTable]; exact Yields.error _
  entries _ _ _ _ := by rw [readEntries]; exact Yields.error _
  line _ _ _ _ := by rw [readLine]; exact Yields.error _

variable {fuel : Nat} (h : ReadsBare fuel)
include h

theorem item_succ (room : Nat) (strict : Bool) (cs : List Char) :
    Yields (readItem (fuel + 1) room strict cs) fun r => r.1.From Bare := by
  unfold readItem
  dsimp only
  split
  · exact Yields.throw _
  · split
    · exact Yields.pure trivial
    split
    · exact Yields.throw _
    split
    · exact Yields.pure trivial
    split
    · exact Yields.throw _
    split
    · exact Yields.after fun p => Yields.pure (bare_phrase p)
    split
    · refine Yields.after fun room => Yields.after fun _ => ?_
      exact Yields.bind (h.items _ _ _) fun xs hxs => Yields.pure (bare_list hxs)
    split
    · refine Yields.after fun room => Yields.bind (h.table _ _ _ ⟨bare_inlineTable, trivial⟩) ?_
      exact fun v hv => Yields.pure hv
    split
    · exact Yields.after fun _ => Yields.pure trivial
    · refine Yields.after fun found => ?_
      split
      · exact Yields.pure bare_own
      · exact Yields.pure bare_own
      · split
        · exact Yields.throw _
        · refine Yields.after fun number => ?_
          split
          · exact Yields.pure trivial
          · exact Yields.pure trivial

theorem items_succ (room : Nat) (kind : Option ItemKind) (items : List (List Char)) :
    Yields (readItems (fuel + 1) room kind items) fun xs => ∀ x ∈ xs, x.From Bare := by
  cases items with
  | nil =>
    rw [readItems]
    exact Yields.ok fun _ hx => absurd hx List.not_mem_nil
  | cons item items =>
    rw [readItems]
    dsimp only
    split
    · exact h.items _ _ _
    · refine Yields.bind (h.item _ _ _) fun r hr => ?_
      have hrest : Yields (do return r.1 :: (← readItems fuel room (some r.2) items))
          fun xs => ∀ x ∈ xs, x.From Bare :=
        Yields.bind (h.items _ _ _) fun xs hxs =>
          Yields.pure (List.forall_mem_cons.mpr ⟨hr, hxs⟩)
      split
      · exact Yields.throw _
      · exact hrest

variable {table : Value} (ht : table.From Bare)
include ht

theorem table_succ (room : Nat) (line : List Char) :
    Yields (readTable (fuel + 1) room line table) (Value.From Bare) := by
  rw [readTable]
  exact Yields.after fun entries => h.entries _ _ _ ht

theorem entries_succ (room : Nat) (entries : List (List Char)) :
    Yields (readEntries (fuel + 1) room entries table) (Value.From Bare) := by
  cases entries with
  | nil =>
    rw [readEntries]
    exact Yields.ok ht
  | cons entry entries =>
    rw [readEntries]
    refine Yields.bind (h.line _ _ _ ht) fun r hr => ?_
    dsimp only
    split
    · exact Yields.pure hr
    · exact h.entries _ _ _ hr

theorem line_succ (room : Nat) (line : List Char) :
    Yields (readLine (fuel + 1) room line table) fun r => r.1.From Bare := by
  rw [readLine]
  refine Yields.after fun pair => Yields.after fun way => ?_
  refine yields_enter (fun inner hinner => ?_) _ ht
  refine Yields.after fun opened => ?_
  split
  · refine Yields.after fun _ => ?_
    split
    · exact Yields.throw _
    · exact Yields.pure hinner
  · refine Yields.bind (h.item _ _ _) fun r hr => ?_
    exact Yields.bind (yields_addKey hr hinner) fun v hv => Yields.pure hv

end ReadsBare

theorem readsBare (fuel : Nat) : ReadsBare fuel := by
  induction fuel with
  | zero => exact ReadsBare.zero
  | succ fuel ih =>
    exact ⟨ih.item_succ, ih.items_succ, fun room line _ ht => ih.table_succ ht room line,
      fun room entries _ ht => ih.entries_succ ht room entries,
      fun room line _ ht => ih.line_succ ht room line⟩

/-! ## Documents -/

theorem bare_valueAt (way : List Step) {v w : Value} (hv : v.From Bare)
    (h : valueAt way v = some w) : w.From Bare := by
  induction way generalizing v with
  | nil => exact Option.some.inj h ▸ hv
  | cons step way ih =>
    cases step with
    | key k =>
      cases v with
      | map o m =>
        obtain ⟨inner, hinner, h⟩ := Option.bind_eq_some_iff.mp h
        exact ih ((Value.fromEntries_iff.mp hv.2).get? hinner) h
      | _ => cases h
    | last =>
      cases v with
      | seq o xs =>
        obtain ⟨inner, hinner, h⟩ := Option.bind_eq_some_iff.mp h
        exact ih (Value.fromAll_iff.mp hv.2 _ (List.mem_of_getLast? hinner)) h
      | _ => cases h

theorem bare_putAt {new : Value} (hnew : new.From Bare) (way : List Step) {v : Value}
    (hv : v.From Bare) : (putAt new way v).From Bare := by
  induction way generalizing v with
  | nil => exact hnew
  | cons step way ih =>
    cases step with
    | key k =>
      cases v with
      | map o m =>
        have hm := Value.fromEntries_iff.mp hv.2
        unfold putAt
        split
        · rename_i inner hinner
          exact ⟨hv.1, Value.fromEntries_iff.mpr
            (hm.set (bare_text k) (ih (hm.get? hinner)))⟩
        · exact ⟨hv.1, Value.fromEntries_iff.mpr (hm.set (bare_text k) hnew)⟩
      | _ => exact hv
    | last =>
      cases v with
      | seq o xs =>
        have hxs := Value.fromAll_iff.mp hv.2
        unfold putAt
        split
        · rename_i inner hinner
          refine ⟨hv.1, Value.fromAll_iff.mpr fun x hx => ?_⟩
          rcases List.mem_append.mp hx with hx | hx
          · exact hxs x (List.dropLast_subset _ hx)
          · rw [List.mem_singleton.mp hx]
            exact ih (hxs _ (List.mem_of_getLast? hinner))
        · exact hv
      | _ => exact hv

namespace Document

/-- Everything in the document is bare. -/
def IsBare (d : Document) : Prop := d.root.From Bare

variable {d : Document}

theorem IsBare.current (h : d.IsBare) : d.current.From Bare := by
  unfold Document.current
  cases hv : valueAt d.way d.root with
  | none => trivial
  | some v => exact bare_valueAt d.way h hv

theorem IsBare.setCurrent (h : d.IsBare) {v : Value} (hv : v.From Bare) :
    (d.setCurrent v).IsBare := bare_putAt hv d.way h

theorem IsBare.addTable (h : d.IsBare) (name : String) (several : Bool) :
    (d.addTable name several).IsBare := by
  unfold Document.addTable
  split
  · rename_i o m hcurrent
    have hmap := h.current
    rw [hcurrent] at hmap
    refine h.setCurrent ⟨hmap.1, Value.fromEntries_iff.mpr
      ((Value.fromEntries_iff.mp hmap.2).set (bare_text name) ?_)⟩
    split
    · exact bare_list fun x hx => by
        rw [List.mem_singleton.mp hx]
        exact bare_empty
    · exact bare_empty
  · exact h

theorem IsBare.goLast (h : d.IsBare) : Yields d.goLast IsBare := by
  unfold Document.goLast
  split
  · exact Yields.ok h
  · exact Yields.error _
  · exact Yields.ok h
  · split
    · exact Yields.error _
    · exact Yields.ok h
  · exact Yields.ok h
  · exact Yields.error _

theorem IsBare.reopen (h : d.IsBare) (name : String) (several : Bool) {inner : Value}
    (hinner : inner.From Bare) : Yields (d.reopen name several inner) IsBare := by
  unfold Document.reopen
  split
  · split
    · exact Yields.error _
    · exact Yields.ok h
  · split
    · split
      · rename_i o xs
        have hmore : (Value.seq o (xs ++ [Value.mapping []])).From Bare := by
          refine ⟨hinner.1, Value.fromAll_iff.mpr fun x hx => ?_⟩
          rcases List.mem_append.mp hx with hx | hx
          · exact Value.fromAll_iff.mp hinner.2 x hx
          · rw [List.mem_singleton.mp hx]
            exact bare_empty
        exact Yields.ok (IsBare.setCurrent (d := d.go (.key name)) h hmore)
      · exact Yields.error _
    · exact Yields.error _

theorem IsBare.openName (h : d.IsBare) (several isLast : Bool) (name : String) :
    Yields (d.openName several isLast name) IsBare := by
  have hlast (d : Document) (hd : d.IsBare) :
      Yields (if several then d.goLast else Pure.pure d) IsBare := by
    split
    · exact hd.goLast
    · exact Yields.pure hd
  have hgo {d : Document} (hd : d.IsBare) (s : Step) : Yields (Pure.pure (d.go s)) IsBare :=
    Yields.pure hd
  unfold Document.openName
  dsimp only
  split
  · exact Yields.throw _
  split
  case h_1 o m hcurrent =>
    have hm : Mapping.From Bare m := by
      have hmap := h.current
      rw [hcurrent] at hmap
      exact Value.fromEntries_iff.mp hmap.2
    split
    · rename_i inner hinner
      split
      · exact Yields.bind (h.reopen name several (hm.get? hinner)) fun d hd =>
          Yields.bind (hgo hd _) hlast
      · exact Yields.bind (Yields.pure h) fun d hd => Yields.bind (hgo hd _) hlast
    · refine Yields.bind (hgo (IsBare.addTable ?_ _ _) _) hlast
      split
      · exact h
      · exact h
  case h_2 o xs hcurrent =>
    split
    · exact Yields.bind (Yields.throw _) hlast
    · refine Yields.bind (hgo ?_ _) hlast
      split
      · exact h
      · exact IsBare.addTable (d := d.go .last) h _ _
    · exact Yields.bind (Yields.throw _) hlast
  case h_3 s hcurrent =>
    split
    · exact Yields.bind (Yields.throw _) hlast
    · exact Yields.bind (Yields.throw _) hlast
  case h_4 => exact Yields.bind (Yields.throw _) hlast

theorem yields_openTable (several : Bool) (names : List String) (h : d.IsBare) :
    Yields (openTable several names d) IsBare := by
  induction names generalizing d with
  | nil => exact Yields.ok h
  | cons name names ih =>
    unfold openTable
    exact Yields.bind (h.openName several _ name) fun d hd => ih hd

end Document

open Document

theorem yields_continueText (fuel : Nat) (u : Unfinished) (cs : List Char) {d : Document}
    (h : d.IsBare) : Yields (continueText fuel u cs d) IsBare := by
  unfold continueText
  refine Yields.after fun first => ?_
  dsimp only
  split
  on_goal 1 => cases cs.getLast?
  -- However it was found out, the value is complete or it goes on.
  all_goals
    refine Yields.after fun closed => ?_
    split
    · refine Yields.bind ((readsBare _).item _ _ _) fun r hr => ?_
      split
      · rename_i o m hcurrent
        have hmap := h.current
        rw [hcurrent] at hmap
        exact Yields.pure (h.setCurrent ⟨hmap.1, Value.fromEntries_iff.mpr
          ((Value.fromEntries_iff.mp hmap.2).set (bare_text u.key) hr)⟩)
      · exact Yields.throw _
    · exact Yields.pure h

theorem yields_addLine (fuel : Nat) (line : List Char) {d : Document} (h : d.IsBare) :
    Yields (d.addLine fuel line) IsBare := by
  unfold Document.addLine
  split
  · dsimp only
    split
    · split
      · exact Yields.pure h
      · exact yields_continueText _ _ _ h
    · split
      · exact Yields.pure h
      · exact yields_continueText _ _ _ h
  · dsimp only
    split
    · exact Yields.pure h
    · refine Yields.after fun header => ?_
      exact yields_openTable _ _ (d := { d with way := [] }) h
    · have hclosed : Yields
          (do return d.setCurrent (← readTable fuel maxSteps (Text.stripChars line) d.current))
          IsBare := Yields.bind ((readsBare _).table _ _ _ h.current) fun v hv =>
        Yields.pure (h.setCurrent hv)
      split
      · exact Yields.throw _
      · exact hclosed
    · split
      · refine Yields.bind ((readsBare _).line _ _ _ h.current) fun r hr => ?_
        exact Yields.pure (h.setCurrent hr)
      · exact Yields.pure h

theorem yields_addLines (fuel : Nat) (lines : List (List Char)) {d : Document} (h : d.IsBare) :
    Yields (addLines fuel lines d) IsBare := by
  induction lines generalizing d with
  | nil => exact Yields.ok h
  | cons line lines ih => exact Yields.bind (yields_addLine fuel line h) fun d hd => ih hd

/-- Nothing that is read from TOML is a node of a document. -/
theorem bare_readDocument {text : String} {m : Mapping} (h : readDocument text = .ok m) :
    m.From Bare := by
  obtain ⟨lines, -, h⟩ := exists_of_bind_eq_ok h
  obtain ⟨d, hd, h⟩ := exists_of_bind_eq_ok h
  have hempty : Document.empty.IsBare := bare_empty
  have hbare : d.IsBare := yields_addLines _ _ hempty d hd
  split at h
  · rename_i o es hroot
    obtain rfl := Except.ok.inj h
    unfold IsBare at hbare
    rw [hroot] at hbare
    exact Value.fromEntries_iff.mp hbare.2
  · obtain rfl := Except.ok.inj h
    exact fun _ hmem => absurd hmem List.not_mem_nil

end AgentRelay.Toml
