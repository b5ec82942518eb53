import BuildingCode.Formula.Generated
import BuildingCode.Proofs.Formula.DryRun
import BuildingCode.Proofs.Formula.Wire
import BuildingCode.Proofs.Store.Settled

/-! Formulas from a generator. The text of a draft comes back from whatever prose stands around it,
since it begins and ends with the outermost braces. What a generator is asked and what becomes of
its answer is the same for every generator, and a draft that is accepted may be stored. -/
namespace BuildingCode.Json

theorem exists_putText (s : String) : ∃ cs, ∀ rest, putText s rest = cs ++ rest :=
  ⟨'\x22' :: (s.toList.flatMap escaped ++ ['\x22']), fun rest => by simp [putText_eq]⟩

mutual
theorem exists_put : ∀ j : Json, ∃ cs, ∀ rest, put j rest = cs ++ rest
  | .null | .unreadable => ⟨['n', 'u', 'l', 'l'], fun _ => rfl⟩
  | .bool true => ⟨['t', 'r', 'u', 'e'], fun _ => rfl⟩
  | .bool false => ⟨['f', 'a', 'l', 's', 'e'], fun _ => rfl⟩
  | .number n => ⟨n.chars, fun _ => rfl⟩
  | .text s => exists_putText s
  | .list [] => ⟨['[', ']'], fun _ => rfl⟩
  | .list (item :: items) => by
    obtain ⟨xs, first⟩ := exists_put item
    obtain ⟨ys, others⟩ := exists_putItems items
    exact ⟨'[' :: (xs ++ ys), fun rest => by simp [put, first, others]⟩
  | .object [] => ⟨['\x7b', '\x7d'], fun _ => rfl⟩
  | .object ((name, value) :: fields) => by
    obtain ⟨xs, named⟩ := exists_putText name
    obtain ⟨ys, first⟩ := exists_put value
    obtain ⟨zs, others⟩ := exists_putFields fields
    exact ⟨'\x7b' :: (xs ++ ':' :: (ys ++ (zs ++ ['\x7d']))), fun rest => by
      simp [put, named, first, others]⟩
theorem exists_putItems : ∀ items : List Json, ∃ cs, ∀ rest, putItems items rest = cs ++ rest
  | [] => ⟨[']'], fun _ => rfl⟩
  | item :: items => by
    obtain ⟨xs, first⟩ := exists_put item
    obtain ⟨ys, others⟩ := exists_putItems items
    exact ⟨',' :: (xs ++ ys), fun rest => by simp [putItems, first, others]⟩
theorem exists_putFields : ∀ fields : List (String × Json), ∃ cs, ∀ rest,
    putFields fields rest = cs ++ '\x7d' :: rest
  | [] => ⟨[], fun _ => rfl⟩
  | (name, value) :: fields => by
    obtain ⟨xs, named⟩ := exists_putText name
    obtain ⟨ys, first⟩ := exists_put value
    obtain ⟨zs, others⟩ := exists_putFields fields
    exact ⟨',' :: (xs ++ ':' :: (ys ++ zs)), fun rest => by simp [putFields, named, first, others]⟩
end

theorem exists_render_object : ∀ fields : List (String × Json), ∃ cs,
    (render (.object fields)).toList = '\x7b' :: (cs ++ ['\x7d'])
  | [] => ⟨[], by rw [render, String.toList_ofList]; rfl⟩
  | (name, value) :: fields => by
    obtain ⟨xs, named⟩ := exists_putText name
    obtain ⟨ys, first⟩ := exists_put value
    obtain ⟨zs, others⟩ := exists_putFields fields
    exact ⟨xs ++ ':' :: (ys ++ zs), by simp [render, put, named, first, others]⟩

end BuildingCode.Json

namespace BuildingCode.Formula
open Expression Outcome

abbrev Generator (σ : Type) := String → σ → Except AuthoringFault String × σ

namespace Generator

variable {σ : Type}

def ask (g : Generator σ) (prompt : String) : ExceptT AuthoringFault (StateM σ) String :=
  ExceptT.mk (g prompt)

/-- Keeps a record of everything that it was asked. -/
def recording (g : Generator σ) : Generator (List String × σ) := fun prompt (asked, s) =>
  let (answer, s) := g prompt s
  (answer, asked ++ [prompt], s)

end Generator

def Draft.accepted (limits : Limits) (text : String) : Except AuthoringFault Draft := do
  let d ← Draft.ofProse text
  let _ ← d.prepare limits "generated"
  return d

section
variable {σ ε α β : Type}

theorem run_ofExcept (x : Except ε α) (s : σ) :
    (MonadExcept.ofExcept x : ExceptT ε (StateM σ) α).run.run s = (x, s) := by
  cases x <;> rfl

theorem run_bind (x : ExceptT ε (StateM σ) α) (f : α → ExceptT ε (StateM σ) β) (s : σ) :
    (x >>= f).run.run s = match x.run.run s with
      | (.ok a, t) => (f a).run.run t
      | (.error e, t) => (.error e, t) := by
  rw [ExceptT.run_bind, StateT.run_bind]
  obtain ⟨_ | a, t⟩ := x.run.run s <;> rfl

theorem run_generate (g : Generator σ) (s : σ) (limits : Limits) {prompt : String}
    (filled : Text.isBlank prompt = false) : (Draft.generate limits g.ask prompt).run.run s =
      ((g (Text.trim prompt) s).1.bind (Draft.accepted limits), (g (Text.trim prompt) s).2) := by
  have required : requireText "prompt" (Text.trim prompt) = .ok () := by
    simp [requireText, filled]
  have asked : (g.ask (Text.trim prompt)).run.run s = g (Text.trim prompt) s := rfl
  simp only [Draft.generate, run_bind, run_ofExcept, required, asked]
  obtain ⟨fault | text, t⟩ := g (Text.trim prompt) s
  · rfl
  · simp only [Except.bind, Draft.accepted]
    obtain fault | d := Draft.ofProse text
    · rfl
    · dsimp only
      change _ = ((d.prepare limits "generated").bind fun _ => .ok d, t)
      cases d.prepare limits "generated" <;> rfl

end

/-- What stands between the outermost braces of a text is found. -/
theorem bracedPart_between {before part after : String} {cs : List Char}
    (opening : '\x7b' ∉ before.toList) (closing : '\x7d' ∉ after.toList)
    (braced : part.toList = '\x7b' :: (cs ++ ['\x7d'])) :
    bracedPart (before ++ part ++ after) = some part := by
  have passed : ∀ c ∈ before.toList, (c != '\x7b') = true := by
    intro c mem
    rw [bne_iff_ne]
    rintro rfl
    exact opening mem
  have dropped : ∀ c ∈ after.toList.reverse, (c != '\x7d') = true := by
    intro c mem
    rw [bne_iff_ne]
    rintro rfl
    exact closing (List.mem_reverse.mp mem)
  have front : (before ++ part ++ after).toList.dropWhile (· != '\x7b') =
      part.toList ++ after.toList := by
    rw [String.toList_append, String.toList_append, List.append_assoc,
      List.dropWhile_append_of_pos passed, braced]
    rfl
  have back : upToLastBrace (part.toList ++ after.toList) = part.toList := by
    rw [upToLastBrace, List.reverse_append, List.dropWhile_append_of_pos dropped, braced]
    simp
  rw [bracedPart, front, back, braced]
  exact congrArg some (by rw [← braced, String.ofList_toList])

theorem ofProse_eq_ok_iff {text : String} {d : Draft} : Draft.ofProse text = .ok d ↔
    ∃ part, bracedPart text = some part ∧ (Json.parse part).bind Draft.decode = some d ∧
      Text.isBlank d.title = false ∧ Text.isBlank d.displayExpression = false ∧
      Text.isBlank d.expression = false := by
  unfold Draft.ofProse
  cases bracedPart text with
  | none => simp
  | some part =>
    cases decoded : (Json.parse part).bind Draft.decode with
    | none => simp [decoded]
    | some d' =>
      simp only [decoded, bind_eq_ok, requireText_eq_ok, Option.some.injEq, exists_eq_left']
      constructor
      · rintro ⟨_, title, _, displayExpression, _, expression, same⟩
        cases same
        exact ⟨rfl, title, displayExpression, expression⟩
      · rintro ⟨rfl, title, displayExpression, expression⟩
        exact ⟨(), title, (), displayExpression, (), expression, rfl⟩

/-- A draft that is written amid prose is recovered exactly if its numbers read back. -/
theorem ofProse_encode_iff {before after : String} {d : Draft} (opening : '\x7b' ∉ before.toList)
    (closing : '\x7d' ∉ after.toList) (title : Text.isBlank d.title = false)
    (displayExpression : Text.isBlank d.displayExpression = false)
    (expression : Text.isBlank d.expression = false) :
    Draft.ofProse (before ++ d.encode.render ++ after) = .ok d ↔
      ∀ x ∈ d.numbers, Json.ReadsBack x := by
  obtain ⟨fields, object⟩ : ∃ fields, d.encode = .object fields := ⟨_, rfl⟩
  obtain ⟨cs, braced⟩ := Json.exists_render_object fields
  rw [← object] at braced
  rw [ofProse_eq_ok_iff, bracedPart_between opening closing braced, ← d.decode_encode_iff,
    ← Json.recovered_iff d.legible_encode]
  simp [title, displayExpression, expression, Json.Recovered]

theorem accepted_eq_ok_iff {limits : Limits} {text : String} {d : Draft} :
    Draft.accepted limits text = .ok d ↔
      Draft.ofProse text = .ok d ∧ ∃ c, d.prepare limits "generated" = .ok c := by
  unfold Draft.accepted
  simp only [bind_eq_ok]
  constructor
  · rintro ⟨_, read, c, prepared, same⟩
    cases same
    exact ⟨read, c, prepared⟩
  · rintro ⟨read, c, prepared⟩
    exact ⟨d, read, c, prepared, rfl⟩

theorem run_generate_of_accepted {σ : Type} {g : Generator σ} {s t : σ} {limits : Limits}
    {prompt text : String} {d : Draft} (filled : Text.isBlank prompt = false)
    (answered : g (Text.trim prompt) s = (.ok text, t))
    (accepted : Draft.accepted limits text = .ok d) : (Draft.generate limits g.ask prompt).run.run s = (.ok d, t) := by
  rw [run_generate g s limits filled, answered]
  exact congrArg (·, t) accepted

end BuildingCode.Formula

namespace BuildingCode.Store
open Expression Formula Outcome

section
variable {d : Draft} {c : Compiled} {s : FormulaStore} {id : String}

theorem create_of_prepare (prepared : d.prepare s.limits id = .ok c) (scope : String) :
    s.create id scope d = .ok (⟨c.definition, scope, true⟩, s.put ⟨c.definition, scope, true⟩) := by
  rw [FormulaStore.create, FormulaStore.author, prepared]
  rfl

theorem update_of_prepare (prepared : d.prepare s.limits id = .ok c) {old : CustomFormula}
    (found : s.get? id = some old) :
    s.update id d = .ok (⟨c.definition, old.scope, old.isActive⟩,
      s.put ⟨c.definition, old.scope, old.isActive⟩) := by
  rw [FormulaStore.update, prepared, found]
  rfl

theorem exists_prepare {limits : Limits} (prepared : d.prepare limits id = .ok c) (other : String) :
    ∃ c', d.prepare limits other = .ok c' := by
  rw [prepare_withId limits d id, prepared]
  exact ⟨_, rfl⟩

end

/-- A draft is recovered from prose around its text, whatever braces its own texts hold. Asking for
a draft asks the generator once, for the trimmed prompt, and a draft that comes back is the one in
the answer and may be created and put in the place of what there is. -/
theorem generated_recovered_storable :
    (∀ (d : Draft) (before after : String), '\x7b' ∉ before.toList → '\x7d' ∉ after.toList →
      Text.isBlank d.title = false → Text.isBlank d.displayExpression = false →
      Text.isBlank d.expression = false →
        (Draft.ofProse (before ++ d.encode.render ++ after) = .ok d ↔
          ∀ x ∈ d.numbers, Json.ReadsBack x)) ∧
    ∀ (σ : Type) (g : Generator σ) (s : σ) (asked : List String) (limits : Limits) (prompt : String),
      Text.isBlank prompt = false →
        ∃ outcome, (Draft.generate limits g.recording.ask prompt).run.run (asked, s) =
          (outcome, asked ++ [Text.trim prompt], (g (Text.trim prompt) s).2) ∧
        ∀ d, outcome = .ok d → ∃ text, (g (Text.trim prompt) s).1 = .ok text ∧
          Draft.ofProse text = .ok d ∧ ∀ store : FormulaStore, store.limits = limits →
            (∀ id scope, ∃ r t, store.create id scope d = .ok (r, t)) ∧
            ∀ id, (store.get? id).isSome → ∃ r t, store.update id d = .ok (r, t) := by
  constructor
  · intro d before after opening closing title displayExpression expression
    exact ofProse_encode_iff opening closing title displayExpression expression
  · intro σ g s asked limits prompt filled
    refine ⟨_, run_generate g.recording (asked, s) limits filled, fun d same => ?_⟩
    obtain ⟨text, answered, accepted⟩ := bind_eq_ok.mp same
    obtain ⟨read, c, prepared⟩ := accepted_eq_ok_iff.mp accepted
    refine ⟨text, answered, read, ?_⟩
    rintro store rfl
    refine ⟨fun id scope => ?_, fun id taken => ?_⟩
    · obtain ⟨c', prepared'⟩ := exists_prepare prepared id
      exact ⟨_, _, create_of_prepare prepared' scope⟩
    · obtain ⟨c', prepared'⟩ := exists_prepare prepared id
      obtain ⟨old, found⟩ := Option.isSome_iff_exists.mp taken
      exact ⟨_, _, update_of_prepare prepared' found⟩

theorem generated_recovered_storable_braces : ∃ (d : Draft) (g : Generator Nat),
    d.displayExpression = "\\dfrac\x7bN\x7d\x7bA\x7d" ∧
    Draft.ofProse ("Here you are\x7d:\n" ++ d.encode.render ++ "\nAnything \x7b else?") = .ok d ∧
    (Draft.generate {} g.recording.ask " stress ").run.run ([], 0) = (.ok d, ["stress"], 1) ∧
    ∃ r t, FormulaStore.create { limits := {} } "f1" "deck" d = .ok (r, t) := by
  let d : Draft :=
    { title := "Stress"
      displayExpression := "\\dfrac\x7bN\x7d\x7bA\x7d"
      params := [⟨"N", "Force", some "N", some 0.0, none, none⟩,
        ⟨"A", "Area", none, none, none, none⟩]
      expression := "N / A" }
  let text := "Here you are\x7d:\n" ++ d.encode.render ++ "\nAnything \x7b else?"
  let g : Generator Nat := fun _ n => (.ok text, n + 1)
  obtain ⟨recovered, generated⟩ := generated_recovered_storable
  have read : Draft.ofProse text = .ok d :=
    (recovered d _ _ (by decide) (by decide) (by decide) (by decide) (by decide)).mpr
      (by decide +kernel)
  obtain ⟨outcome, run, storable⟩ := generated Nat g 0 [] {} " stress " (by decide)
  have prepared : ∃ c, d.prepare {} "generated" = .ok c := exists_of_isOk (by decide +kernel)
  have trimmed : Text.trim " stress " = "stress" := by decide +kernel
  have answered : g.recording (Text.trim " stress ") ([], 0) = (.ok text, ["stress"], 1) := by
    rw [trimmed]
    rfl
  have accepted := run_generate_of_accepted (by decide) answered
    (accepted_eq_ok_iff.mpr ⟨read, prepared⟩)
  obtain rfl : outcome = .ok d := congrArg Prod.fst (run.symm.trans accepted)
  obtain ⟨_, _, _, stored⟩ := storable d rfl
  exact ⟨d, g, rfl, read, accepted, (stored { limits := {} } rfl).1 "f1" "deck"⟩

end BuildingCode.Store
