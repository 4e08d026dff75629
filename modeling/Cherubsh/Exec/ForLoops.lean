import Cherubsh.Parser.Compound
import Cherubsh.Exec.LoopLevels

/-! # Loops over words

A `for` goes over the fields of the words behind `in`, or over the positional parameters if
there is no `in`. The parser keeps no trace of an `in` with no words behind it.
-/
namespace Cherubsh.Exec.ForLoops
open Grammar LoopLevels

section
variable (s : Parser)

def isListWord (t : Token) : Bool := t.kind = .word || t.kind = .assignmentWord || t.kind = .number

def tokenWord (t : Token) : WordDesc :=
  wordOf s t (match t.value with
    | .none => tokenToTextLossy t
    | value => tokenValueToString value) t.wordFlags

def listWords (l : List Token) : List WordDesc := (l.takeWhile isListWord).map (tokenWord s)

def inWords : List Token → Option (List WordDesc)
  | [] => none
  | t :: rest => if t.isText "in" then some (listWords s rest) else none

def wordsAfterIn : Option (List WordDesc) :=
  inWords s ((s.tokens.drop (s.index + 1)).dropWhile fun t => t.kind = .newline)

variable {s s' : Parser}

theorem drop_of_none (h : s.peek = none) : s.tokens.drop s.index = [] :=
  List.drop_eq_nil_of_le (List.getElem?_eq_none_iff.mp h)

theorem drop_of_peek {t : Token} (h : s.peek = some t) : s.tokens.drop s.index = t :: s.tokens.drop (s.index + 1) := by
  obtain ⟨hlt,rfl⟩ := List.getElem?_eq_some_iff.mp h
  exact List.drop_eq_getElem_cons hlt

theorem wordListStep_of_word {t : Token} (h : s.peek = some t) (ht : isListWord t) (words : List WordDesc) :
    wordListStep words s = .ok (.inl (words ++ [tokenWord s t]),{ s with index := s.index + 1 }) := by
  have hw : parseWordDesc s = .ok (tokenWord s t,{ s with index := s.index + 1 }) := by
    unfold parseWordDesc wordOrFail
    rw [bind_of_ok (bump_of_peek h)]
    rfl
  unfold wordListStep
  rw [get_bind,Parser.peekKind,h,Option.map_some]
  simp only [isListWord,Bool.or_eq_true,decide_eq_true_eq] at ht
  obtain (ht | ht) | ht := ht <;> rw [ht] <;> exact bind_of_ok hw

theorem wordListStep_of_end (h : ∀ t ∈ s.peek, isListWord t = false) (words : List WordDesc) :
    ∃ s', wordListStep words s = .ok (.inr words,s') := by
  unfold wordListStep
  rw [get_bind,Parser.peekKind]
  cases hp : s.peek with
  | none => exact ⟨s,rfl⟩
  | some t =>
    have hb := bump_of_peek hp
    have ht := h t hp
    unfold isListWord at ht
    rw [Option.map_some]
    revert ht
    cases t.kind <;> intro ht
    case semicolon => exact ⟨_,bind_of_ok hb⟩
    case word | assignmentWord | number => cases ht
    all_goals exact ⟨_,rfl⟩

theorem iterate_wordListStep {fuel : ℕ} {words found : List WordDesc}
    (h : iterate .outOfFuel wordListStep fuel words s = .ok (found,s')) :
    found = words ++ listWords s (s.tokens.drop s.index) := by
  induction fuel generalizing words s with
  | zero => cases h
  | succ fuel ih =>
    rw [iterate] at h
    by_cases hw : ∃ t ∈ s.peek, isListWord t
    · obtain ⟨t,hp,ht⟩ := hw
      rw [bind_of_ok (wordListStep_of_word hp ht words)] at h
      have hc : ∀ rest, listWords s (t :: rest) = tokenWord s t :: listWords s rest := by simp [listWords,ht]
      rw [ih h,drop_of_peek hp,hc,List.append_assoc]
      rfl
    · have he : ∀ t ∈ s.peek, isListWord t = false := fun t ht => Bool.eq_false_iff.mpr fun h => hw ⟨t,ht,h⟩
      obtain ⟨_,hs⟩ := wordListStep_of_end he words
      rw [bind_of_ok hs] at h
      cases h
      cases hp : s.peek with
      | none => simp [drop_of_none hp,listWords]
      | some t => simp [drop_of_peek hp,listWords,he t hp]

theorem parseMapList_keeps {limit : ℕ} {mapList : Option (List WordDesc)} (h : parseMapList limit s = .ok (mapList,s')) :
    mapList = (inWords s (s.tokens.drop s.index)).filter (· ≠ []) := by
  unfold parseMapList at h
  rw [get_bind] at h
  cases hp : s.peek with
  | none =>
    rw [Parser.isWord,hp] at h
    cases h
    rw [drop_of_none hp]
    rfl
  | some t =>
    have hin : s.isWord "in" = t.isText "in" := by rw [Parser.isWord,hp,Option.any_some]
    rw [drop_of_peek hp,inWords]
    rw [hin] at h
    split at h
    · rename_i ht
      obtain ⟨_,_,he,h⟩ := exists_of_bind h
      obtain ⟨words,_,hw,h⟩ := exists_of_bind h
      cases h
      unfold expectWord at he
      rw [get_bind,hin,if_pos ht,bind_of_ok (bump_of_peek hp)] at he
      cases he
      have hf : words = listWords s (s.tokens.drop (s.index + 1)) := iterate_wordListStep hw
      rw [hf,if_pos ht]
      cases listWords s (s.tokens.drop (s.index + 1)) <;> rfl
    · rename_i ht
      cases h
      rw [if_neg ht]
      rfl

theorem drop_length_takeWhile (p : Token → Bool) (l : List Token) : l.drop (l.takeWhile p).length = l.dropWhile p := by
  induction l with
  | nil => rfl
  | cons t l ih => by_cases ht : p t <;> simp [ht,ih]

theorem parseForWords_keeps {command : Parse Command} {limit : ℕ} {c : Command}
    (h : parseForWords command limit s = .ok (c,s')) : ∃ name mapList action line,
      c = (CommandData.for name mapList action line).plain ∧ mapList = (wordsAfterIn s).filter (· ≠ []) := by
  unfold parseForWords at h
  rw [get_bind] at h
  obtain ⟨token,_,hb,h⟩ := exists_of_bind h
  cases hp : s.peek with
  | none =>
    unfold bump at hb
    rw [get_bind,hp] at hb
    cases hb
    cases h
  | some t =>
    rw [bump_of_peek hp] at hb
    cases hb
    obtain ⟨_,_,hs,h⟩ := exists_of_bind h
    obtain ⟨mapList,_,hm,h⟩ := exists_of_bind h
    obtain ⟨action,_,-,h⟩ := exists_of_bind h
    cases h
    cases hs
    refine ⟨_,_,_,_,rfl,(parseMapList_keeps hm).trans ?_⟩
    rw [wordsAfterIn,← drop_length_takeWhile,List.drop_drop]
    rfl
end

section
variable {σ : Type}

/-- What a loop over words asks of the shell. An error of the expansion may come with an exit status. -/
structure Shell (σ : Type) where
  expand : List WordDesc → State σ → Except (Option ℤ) (List Text) × State σ
  expand_nil : ∀ s, expand [] s = (.ok [],s)
  positional : σ → List Text
  posix : σ → Bool
  isValidName : Text → Bool

def loopItems (sh : Shell σ) (mapList : Option (List WordDesc)) (s : State σ) : (ℤ ⊕ List Text) × State σ :=
  match mapList with
  | none => (.inr (sh.positional s.world),s)
  | some words =>
    match sh.expand words s with
    | (.ok items,s) => (.inr items,s)
    | (.error (some status),s) => (.inl status,{ s with pending := some (.exit status) })
    | (.error none,s) => (.inr (words.map WordDesc.text),s)

def executeFor (sh : Shell σ) (assign : Text → Text → State σ → Entry × State σ) (name : Text)
    (mapList : Option (List WordDesc)) (action : Run σ) : Run σ := fun s =>
  if sh.isValidName name then
    match loopItems sh mapList s.enter with
    | (.inl status,s) => some (status,s.leave)
    | (.inr items,s) => (forItems (assign name) action items 0 s).map leaveLoop
  else some (1,if sh.posix s.world then { s with pending := some (.exit 1) } else s)

/-- What an iteration does to the state, when it is not skipped, the variable can be assigned and the
body asks for no unwinding. -/
def Iterates (assign : Text → State σ → Entry × State σ) (action : Run σ) (iteration : Text → State σ → ℤ × State σ) : Prop :=
  ∀ item s, (assign item s).1 = .enter ∧ action (assign item s).2 = some (iteration item s) ∧ (iteration item s).2.pending = none

theorem forItems_of_iterates {assign : Text → State σ → Entry × State σ} {action : Run σ} {iteration : Text → State σ → ℤ × State σ}
    (h : Iterates assign action iteration) (items : List Text) (status : ℤ) (s : State σ) :
    forItems assign action items status s = some (items.foldl (fun r item => iteration item r.2) (status,s)) := by
  induction items generalizing status s with
  | nil => rfl
  | cons item items ih =>
    obtain ⟨ha,hac,hp⟩ := h item s
    rw [forItems,← Prod.eta (assign item s),ha]
    dsimp only
    rw [hac,Option.bind_some,bodyEnd,handleLoopUnwind,hp]
    exact ih _ _

variable (sh : Shell σ) (assign : Text → Text → State σ → Entry × State σ) (action : Run σ) {name : Text} (st : State σ)

theorem executeFor_nil (hn : sh.isValidName name) : executeFor sh assign name (some []) action st = some (0,st) := by
  simp [executeFor,hn,loopItems,sh.expand_nil,forItems,leaveLoop,State.enter,State.leave]

/-- The loop goes over the fields of the words behind `in`, or over the positional parameters, but
also over these when `in` has no words. -/
theorem forCommand_iff {command : Parse Command} {limit : ℕ} {s s' : Parser} {c : Command}
    (h : parseForWords command limit s = .ok (c,s')) : ∃ name mapList body line,
      c = (CommandData.for name mapList body line).plain ∧
      ((∀ assign action, executeFor sh assign name.text mapList action st = executeFor sh assign name.text (wordsAfterIn s) action st) ↔
        wordsAfterIn s ≠ some [] ∨ sh.positional st.world = [] ∨ sh.isValidName name.text = false) ∧
      ∀ words items st' assign action iteration, sh.isValidName name.text → sh.expand words st.enter = (.ok items,st') →
        Iterates (assign name.text) action iteration → executeFor sh assign name.text (some words) action st =
          some (leaveLoop (items.foldl (fun r item => iteration item r.2) (0,st'))) := by
  obtain ⟨name,mapList,body,line,rfl,rfl⟩ := parseForWords_keeps h
  refine ⟨_,_,_,_,rfl,?_,fun words items st' assign action iteration hname hexpand hiterates => ?_⟩
  swap
  · simp [executeFor,hname,loopItems,hexpand,forItems_of_iterates hiterates]
  by_cases hwords : wordsAfterIn s = some []
  · rw [hwords]
    cases hname : sh.isValidName name.text with
    | false => simp [executeFor,hname]
    | true =>
      cases hpos : sh.positional st.world with
      | nil =>
        have hnone : ∀ assign action, executeFor sh assign name.text none action st = some (0,st) := by
          simp [executeFor,hname,loopItems,State.enter,hpos,forItems,leaveLoop,State.leave]
        simp [Option.filter,hnone,executeFor_nil sh _ _ st hname]
      | cons p ps =>
        refine iff_of_false (fun h => ?_) (by simp)
        have hrun := h (fun _ _ s => (.enter,s)) fun _ => none
        rw [executeFor_nil sh _ _ st hname] at hrun
        simp [Option.filter,executeFor,hname,loopItems,State.enter,hpos,forItems] at hrun
  · refine iff_of_true (fun assign action => ?_) (.inl hwords)
    have hfilter : (wordsAfterIn s).filter (· ≠ []) = wordsAfterIn s := by
      cases hw : wordsAfterIn s <;> simp_all
    rw [hfilter]
end

def word (w : String) : Token := ⟨.word,.text w.toList,⟨0,0,0⟩,0⟩
def semicolon : Token := ⟨.semicolon,.none,⟨0,0,0⟩,0⟩

def loopOver (words : List String) : Parser :=
  .new (word "x" :: word "in" :: words.map word ++ [semicolon,word "do",word ":",semicolon,word "done"]) []

def parsed (words : List String) : Except ParseError (Command × Parser) :=
  parseForWords (parseCommand (fun _ _ => []) 9) 9 (loopOver words)

def twoParameters : Shell (List Text) where
  expand words s := (.ok (words.map WordDesc.text),s)
  expand_nil _ := rfl
  positional _ := ["a".toList,"b".toList]
  posix _ := false
  isValidName _ := true

def noted (_ item : Text) (s : State (List Text)) : Entry × State (List Text) := (.enter,{ s with world := s.world ++ [item] })

theorem forCommand_iff_word : ∃ c s', parsed ["w"] = .ok (c,s') ∧ ∃ name mapList body line,
    c = (CommandData.for name mapList body line).plain ∧ ∀ assign action,
      executeFor twoParameters assign name.text mapList action ⟨[],none,0⟩ =
        executeFor twoParameters assign name.text (wordsAfterIn (loopOver ["w"])) action ⟨[],none,0⟩ := by
  have hsome : (parsed ["w"]).toOption.map (fun _ => ()) = some () := by decide +kernel
  obtain ⟨⟨c,s'⟩,h,-⟩ := exists_ok_of_map hsome
  obtain ⟨name,mapList,body,line,hc,hiff,-⟩ := forCommand_iff twoParameters ⟨[],none,0⟩ h
  exact ⟨c,s',h,name,mapList,body,line,hc,hiff.mpr (.inl (by decide))⟩

/-- `for x in; do :; done` goes over the positional parameters. -/
theorem forCommand_over_parameters : ∃ c s', parsed [] = .ok (c,s') ∧ ∃ name mapList body line,
    c = (CommandData.for name mapList body line).plain ∧
      executeFor twoParameters noted name.text mapList (fun s => some (0,s)) ⟨[],none,0⟩ ≠ some (0,⟨[],none,0⟩) := by
  have hsome : (parsed []).toOption.map (fun _ => ()) = some () := by decide +kernel
  obtain ⟨⟨c,s'⟩,h,-⟩ := exists_ok_of_map hsome
  obtain ⟨name,mapList,body,line,hc,rfl⟩ := parseForWords_keeps h
  refine ⟨c,s',h,name,_,body,line,hc,fun hrun => ?_⟩
  have hworld := congrArg (Option.map fun r => r.2.world) hrun
  exact absurd (show some ["a".toList,"b".toList] = some [] from hworld) (by simp)
end Cherubsh.Exec.ForLoops
