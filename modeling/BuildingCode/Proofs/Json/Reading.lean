import BuildingCode.Json.Reader
import BuildingCode.Json.Writer

/-! A document reads back from its text. The scan gives the tokens that the document was written with,
and the machine rebuilds the document from them. -/
namespace BuildingCode.Json
open Number Text

theorem putText_eq (s : String) (rest : List Char) :
    putText s rest = '\x22' :: (s.toList.flatMap escaped ++ '\x22' :: rest) := by
  unfold putText
  congr 1
  induction s.toList with
  | nil => rfl
  | cons c cs ih => rw [List.foldr_cons, ih, List.flatMap_cons, List.append_assoc]

theorem hexUnit_hexDigits : ∀ n < 0x20,
    hexUnit '0' '0' (Nat.digitChar (n / 16)) (Nat.digitChar (n % 16)) = some n := by
  decide

theorem pushUnit_toNat {c : Char} (low : c.toNat < 0x20) (s : TextState) :
    s.pushUnit c.toNat = s.push c := by
  unfold TextState.pushUnit
  rw [if_neg (by simp; omega), if_neg (by simp; omega), Char.ofNat_toNat]

theorem scanText_escaped (s : TextState) (width : Nat) (c : Char) (cs : List Char) :
    scanText s width (escaped c ++ cs) = scanText (s.push c) (width + (escaped c).length) cs := by
  unfold escaped
  split
  case h_8 =>
    split
    · rename_i low
      have unit := hexUnit_hexDigits c.toNat low
      simp only [hexDigits, List.cons_append, List.nil_append, scanText, unit, List.length_cons,
        List.length_nil, pushUnit_toNat low]
    · rename_i plain
      simp only [List.cons_append, List.nil_append, List.length_cons, List.length_nil]
      rw [scanText.eq_def]
      split
      case h_5 same =>
        cases same
        rw [if_neg (by simp_all)]
      all_goals simp_all
  all_goals rfl

theorem scanText_flatMap (cs done : List Char) (width : Nat) (rest : List Char) :
    scanText ⟨done, none, true⟩ width (cs.flatMap escaped ++ '\x22' :: rest) =
      some (some (String.ofList (done.reverse ++ cs)), width + (cs.flatMap escaped).length + 1) := by
  induction cs generalizing done width with
  | nil => simp [scanText, TextState.finish]
  | cons c cs ih =>
    have pushed : (⟨done, none, true⟩ : TextState).push c = ⟨c :: done, none, true⟩ := rfl
    rw [List.flatMap_cons, List.append_assoc, scanText_escaped, pushed, ih]
    simp [Nat.add_assoc]

theorem scan_passing (passed rest : List Char) : scan passed.length (passed ++ rest) = scan 0 rest := by
  induction passed with
  | nil => rfl
  | cons c cs ih =>
    rw [List.length_cons, List.cons_append, scan]
    exact ih

theorem scan_putText (s : String) (rest : List Char) :
    scan 0 (putText s rest) = (scan 0 rest).map (.text (some s) :: ·) := by
  have token : scanToken '\x22' (s.toList.flatMap escaped ++ '\x22' :: rest) =
      some (.text (some s), (s.toList.flatMap escaped).length + 1) := by
    simp [scanToken, TextState.start, scanText_flatMap]
  rw [putText_eq, scan, if_neg (by decide), token]
  dsimp only
  rw [show s.toList.flatMap escaped ++ '\x22' :: rest =
    (s.toList.flatMap escaped ++ ['\x22']) ++ rest by simp]
  have passing := scan_passing (s.toList.flatMap escaped ++ ['\x22']) rest
  rw [List.length_append, List.length_singleton] at passing
  rw [passing]

def Ends (rest : List Char) : Prop := ∀ c ∈ rest.head?, c = ',' ∨ c = ']' ∨ c = '\x7d'

/-- The numeral is scanned as a whole wherever a document may write it. -/
def IsScanned (n : Numeral) : Prop :=
  ∀ rest, Ends rest → scan 0 (n.chars ++ rest) = (scan 0 rest).map (.number n :: ·)

mutual
/-- Has a meaning in all its parts. -/
def Legible : Json → Prop
  | .number n => IsScanned n
  | .unreadable => False
  | .list items => LegibleItems items
  | .object fields => LegibleFields fields
  | _ => True
def LegibleItems : List Json → Prop
  | [] => True
  | item :: items => item.Legible ∧ LegibleItems items
def LegibleFields : List (String × Json) → Prop
  | [] => True
  | (_, value) :: fields => value.Legible ∧ LegibleFields fields
end

mutual
/-- The tokens that a document is written with. -/
def tokens : Json → List Token
  | .null | .unreadable => [.null]
  | .bool b => [.bool b]
  | .number n => [.number n]
  | .text s => [.text (some s)]
  | .list [] => [.openList, .closeList]
  | .list (item :: items) => .openList :: (tokens item ++ tokensOfItems items)
  | .object [] => [.openObject, .closeObject]
  | .object ((name, value) :: fields) =>
    .openObject :: .text (some name) :: .colon :: (tokens value ++ tokensOfFields fields)
def tokensOfItems : List Json → List Token
  | [] => [.closeList]
  | item :: items => .comma :: (tokens item ++ tokensOfItems items)
def tokensOfFields : List (String × Json) → List Token
  | [] => [.closeObject]
  | (name, value) :: fields =>
    .comma :: .text (some name) :: .colon :: (tokens value ++ tokensOfFields fields)
end

theorem ends_putItems (items : List Json) (rest : List Char) : Ends (putItems items rest) := by
  cases items <;> simp [Ends, putItems]

theorem ends_putFields (fields : List (String × Json)) (rest : List Char) :
    Ends (putFields fields rest) := by
  cases fields with
  | nil => simp [Ends, putFields]
  | cons f fields => simp [Ends, putFields]

theorem scan_mark {c : Char} {t : Token} (rest : List Char) (filled : isGap c = false)
    (mark : scanToken c rest = some (t, 0)) : scan 0 (c :: rest) = (scan 0 rest).map (t :: ·) := by
  rw [scan, filled, mark]
  rfl

mutual
theorem scan_put (j : Json) (legible : j.Legible) (rest : List Char) (ends : Ends rest) :
    scan 0 (put j rest) = (scan 0 rest).map (tokens j ++ ·) := by
  match j with
  | .null => rfl
  | .bool true => rfl
  | .bool false => rfl
  | .number n => exact legible rest ends
  | .text s => exact scan_putText s rest
  | .list [] =>
    rw [put, scan_mark _ (by decide) rfl, scan_mark _ (by decide) rfl, tokens, Option.map_map]
    rfl
  | .list (item :: items) =>
    obtain ⟨first, others⟩ := legible
    rw [put, scan_mark _ (by decide) rfl, scan_put item first _ (ends_putItems items rest),
      scan_putItems items others rest, tokens]
    simp [Function.comp_def]
  | .object [] =>
    rw [put, scan_mark _ (by decide) rfl, scan_mark _ (by decide) rfl, tokens, Option.map_map]
    rfl
  | .object ((name, value) :: fields) =>
    obtain ⟨first, others⟩ := legible
    rw [put, scan_mark _ (by decide) rfl, scan_putText, scan_mark _ (by decide) rfl,
      scan_put value first _ (ends_putFields fields rest), scan_putFields fields others rest, tokens]
    simp [Function.comp_def]
theorem scan_putItems (items : List Json) (legible : LegibleItems items) (rest : List Char) :
    scan 0 (putItems items rest) = (scan 0 rest).map (tokensOfItems items ++ ·) := by
  match items with
  | [] =>
    rw [putItems, scan_mark _ (by decide) rfl]
    rfl
  | item :: items =>
    obtain ⟨first, others⟩ := legible
    rw [putItems, scan_mark _ (by decide) rfl, scan_put item first _ (ends_putItems items rest),
      scan_putItems items others rest, tokensOfItems]
    simp [Function.comp_def]
theorem scan_putFields (fields : List (String × Json)) (legible : LegibleFields fields)
    (rest : List Char) :
    scan 0 (putFields fields rest) = (scan 0 rest).map (tokensOfFields fields ++ ·) := by
  match fields with
  | [] =>
    rw [putFields, scan_mark _ (by decide) rfl]
    rfl
  | (name, value) :: fields =>
    obtain ⟨first, others⟩ := legible
    rw [putFields, scan_mark _ (by decide) rfl, scan_putText, scan_mark _ (by decide) rfl,
      scan_put value first _ (ends_putFields fields rest), scan_putFields fields others rest, tokensOfFields]
    simp [Function.comp_def]
end

namespace Machine

theorem run_itemOrEnd (stack : List Open) (j : Json) (ts : List Token) :
    run ⟨stack, .itemOrEnd⟩ (tokens j ++ ts) = run ⟨stack, .value⟩ (tokens j ++ ts) := by
  match j with
  | .null | .unreadable | .bool _ | .number _ | .text _ | .list [] | .list (_ :: _) | .object [] => rfl
  | .object ((_, _) :: _) => rfl

mutual
theorem run_tokens (j : Json) (legible : j.Legible) (stack : List Open) (ts : List Token) :
    run ⟨stack, .value⟩ (tokens j ++ ts) = (put j stack).run ts := by
  match j with
  | .null | .bool _ | .number _ | .text _ | .list [] | .object [] => rfl
  | .list (item :: items) =>
    obtain ⟨first, others⟩ := legible
    change run ⟨.list [] :: stack, .itemOrEnd⟩ (tokens item ++ tokensOfItems items ++ ts) = _
    rw [List.append_assoc, run_itemOrEnd, run_tokens item first]
    exact run_tokensOfItems items others [item] stack ts
  | .object ((name, value) :: fields) =>
    obtain ⟨first, others⟩ := legible
    change run ⟨.object [] true name :: stack, .value⟩ (tokens value ++ tokensOfFields fields ++ ts) = _
    rw [List.append_assoc, run_tokens value first]
    exact run_tokensOfFields fields others [(name, value)] name stack ts
theorem run_tokensOfItems (items : List Json) (legible : LegibleItems items) (before : List Json)
    (stack : List Open) (ts : List Token) :
    run ⟨.list before :: stack, .commaOrEnd⟩ (tokensOfItems items ++ ts) =
      (put (.list (before.reverse ++ items)) stack).run ts := by
  match items with
  | [] =>
    rw [List.append_nil]
    rfl
  | item :: items =>
    obtain ⟨first, others⟩ := legible
    change run ⟨.list before :: stack, .value⟩ (tokens item ++ tokensOfItems items ++ ts) = _
    rw [List.append_assoc, run_tokens item first]
    refine (run_tokensOfItems items others (item :: before) stack ts).trans ?_
    simp
theorem run_tokensOfFields (fields : List (String × Json)) (legible : LegibleFields fields)
    (before : List (String × Json)) (name : String) (stack : List Open) (ts : List Token) :
    run ⟨.object before true name :: stack, .commaOrEnd⟩ (tokensOfFields fields ++ ts) =
      (put (.object (before.reverse ++ fields)) stack).run ts := by
  match fields with
  | [] =>
    rw [List.append_nil]
    rfl
  | (next, value) :: fields =>
    obtain ⟨first, others⟩ := legible
    change run ⟨.object before true next :: stack, .value⟩
      (tokens value ++ tokensOfFields fields ++ ts) = _
    rw [List.append_assoc, run_tokens value first]
    refine (run_tokensOfFields fields others ((next, value) :: before) next stack ts).trans ?_
    simp
end

end Machine

/-- A document that has a meaning reads back from its text. -/
theorem parse_render {j : Json} (legible : j.Legible) : parse j.render = some j := by
  have scanned := scan_put j legible [] (by simp [Ends])
  have ran := Machine.run_tokens j legible [] []
  unfold parse parseChars render
  rw [String.toList_ofList, scanned, scan, Option.map_some, Option.bind_eq_bind, Option.bind_some]
  rw [Machine.start, ran]
  rfl

end BuildingCode.Json
