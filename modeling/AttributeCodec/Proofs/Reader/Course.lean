import AttributeCodec.Proofs.Entity.Decode

/-! A walk calls on one child after the other, each with the state that the call before has left. -/

namespace AttributeCodec.Reader

variable {κ σ : Type} {visit : κ → Reader → Visit σ Bool} {children calls : List (κ × Reader)} {child : κ × Reader}
  {state next final : σ} {result : Except Fault Unit}

def call (visit : κ → Reader → Visit σ Bool) (child : κ × Reader) (state : σ) : Except Fault Bool × σ :=
  (visit child.1 child.2).run.run state

inductive GoesOn (visit : κ → Reader → Visit σ Bool) : List (κ × Reader) → σ → σ → Prop
  | nil {state : σ} : GoesOn visit [] state state
  | cons {child : κ × Reader} {rest : List (κ × Reader)} {state next final : σ}
      (first : call visit child state = (.ok true, next)) (others : GoesOn visit rest next final) :
      GoesOn visit (child :: rest) state final

/-- The calls that are made on the children, from a state, and how they end. -/
inductive Course (visit : κ → Reader → Visit σ Bool) (children : List (κ × Reader)) (state : σ) :
    List (κ × Reader) → Except Fault Unit → σ → Prop
  | whole {final : σ} (goesOn : GoesOn visit children state final) : Course visit children state children (.ok ()) final
  | stopped {before after : List (κ × Reader)} {child : κ × Reader} {next final : σ}
      (split : children = before ++ child :: after) (goesOn : GoesOn visit before state next)
      (last : call visit child next = (.ok false, final)) :
      Course visit children state (before ++ [child]) (.ok ()) final
  | refused {before after : List (κ × Reader)} {child : κ × Reader} {next final : σ} {fault : Fault}
      (split : children = before ++ child :: after) (goesOn : GoesOn visit before state next)
      (last : call visit child next = (.error fault, final)) :
      Course visit children state (before ++ [child]) (.error fault) final

theorem Course.cons (first : call visit child state = (.ok true, next))
    (h : Course visit children next calls result final) :
    Course visit (child :: children) state (child :: calls) result final := by
  cases h with
  | whole goesOn => exact .whole (.cons first goesOn)
  | stopped split goesOn last => exact .stopped (congrArg (child :: ·) split) (.cons first goesOn) last
  | refused split goesOn last => exact .refused (congrArg (child :: ·) split) (.cons first goesOn) last

theorem exists_course (visit : κ → Reader → Visit σ Bool) (children : List (κ × Reader)) (state : σ) :
    ∃ calls result final, Course visit children state calls result final := by
  induction children generalizing state with
  | nil => exact ⟨[], .ok (), state, .whole .nil⟩
  | cons child children ih =>
    rcases hcall : call visit child state with ⟨fault | _ | _, next⟩
    · exact ⟨[child], .error fault, next, .refused rfl .nil hcall⟩
    · exact ⟨[child], .ok (), next, .stopped rfl .nil hcall⟩
    · obtain ⟨calls, result, final, h⟩ := ih next
      exact ⟨child :: calls, result, final, h.cons hcall⟩

theorem Course.initial (h : Course visit children state calls result final) : calls <+: children := by
  cases h with
  | whole => exact List.prefix_refl children
  | stopped split | refused split => exact ⟨_, by rw [List.append_assoc, split, List.singleton_append]⟩

def logged (visit : κ → Reader → Visit σ Bool) (key : κ) (item : Reader) : Visit (σ × List (κ × Reader)) Bool := do
  let (state, calls) ← get
  let (outcome, next) := call visit (key, item) state
  set (next, calls ++ [(key, item)])
  match outcome with
  | .ok goOn => return goOn
  | .error fault => throw fault

theorem call_logged (visit : κ → Reader → Visit σ Bool) (child : κ × Reader) (state : σ) (calls : List (κ × Reader)) :
    call (logged visit) child (state, calls) =
      ((call visit child state).1, (call visit child state).2, calls ++ [child]) := by
  have hrun : call (logged visit) child (state, calls) =
      (match (call visit child state).1 with
        | .ok goOn => return goOn
        | .error fault => throw fault : Visit (σ × List (κ × Reader)) Bool).run.run
          ((call visit child state).2, calls ++ [child]) := rfl
  rw [hrun]
  cases (call visit child state).1 <;> rfl

theorem GoesOn.logged (h : GoesOn visit children state final) (calls : List (κ × Reader)) :
    GoesOn (logged visit) children (state, calls) (final, calls ++ children) := by
  -- Calls made before stay in front, so the induction is over any that are in the log.
  induction h generalizing calls with
  | nil =>
    rw [List.append_nil]
    exact .nil
  | @cons child rest state next final first _ ih =>
    have hrest := ih (calls ++ [child])
    rw [List.append_assoc, List.singleton_append] at hrest
    exact .cons (by rw [call_logged, first]) hrest

theorem Course.logged (h : Course visit children state calls result final) :
    Course (logged visit) children (state, []) calls result (final, calls) := by
  cases h with
  | whole goesOn => exact .whole (goesOn.logged [])
  | stopped split goesOn last => exact .stopped split (goesOn.logged []) (by rw [call_logged, last]; rfl)
  | refused split goesOn last => exact .refused split (goesOn.logged []) (by rw [call_logged, last]; rfl)

def visitEach (visit : κ → Reader → Visit σ Bool) : List (κ × Reader) → Visit σ Unit
  | [] => pure ()
  | child :: children => do
    if ← visit child.1 child.2 then visitEach visit children

theorem run_visitEach_cons (visit : κ → Reader → Visit σ Bool) (child : κ × Reader) (children : List (κ × Reader))
    (state : σ) :
    (visitEach visit (child :: children)).run.run state =
      match call visit child state with
      | (.ok goOn, next) => (if goOn then visitEach visit children else pure ()).run.run next
      | (.error fault, next) => (.error fault, next) := by
  rw [visitEach, Decoding.run_bind, call]
  rcases (visit child.1 child.2).run.run state with ⟨_ | _, _⟩ <;> rfl

theorem run_visitEach_append (h : GoesOn visit children state next) (rest : List (κ × Reader)) :
    (visitEach visit (children ++ rest)).run.run state = (visitEach visit rest).run.run next := by
  induction h with
  | nil => rfl
  | cons first _ ih =>
    rw [List.cons_append, run_visitEach_cons, first]
    exact ih

theorem run_visitEach (h : Course visit children state calls result final) :
    (visitEach visit children).run.run state = (result, final) := by
  cases h with
  | whole goesOn =>
    have hrun := run_visitEach_append goesOn []
    rw [List.append_nil] at hrun
    exact hrun
  | stopped split goesOn last => rw [split, run_visitEach_append goesOn, run_visitEach_cons, last]; rfl
  | refused split goesOn last => rw [split, run_visitEach_append goesOn, run_visitEach_cons, last]

/-- From this state the walk makes these calls, in this order, and ends with this result in that state. -/
structure Makes (walk : ∀ {σ : Type}, (κ → Reader → Visit σ Bool) → Visit σ Unit)
    (visit : κ → Reader → Visit σ Bool) (state : σ) (calls : List (κ × Reader)) (result : Except Fault Unit)
    (final : σ) : Prop where
  run : (walk visit).run.run state = (result, final)
  log : (walk (logged visit)).run.run (state, []) = (result, final, calls)

theorem Course.makes {walk : ∀ {σ : Type}, (κ → Reader → Visit σ Bool) → Visit σ Unit}
    (hwalk : ∀ {σ : Type} (visit : κ → Reader → Visit σ Bool), walk visit = visitEach visit children)
    (h : Course visit children state calls result final) : Makes walk visit state calls result final where
  run := by rw [hwalk, run_visitEach h]
  log := by rw [hwalk, run_visitEach h.logged]

theorem visitFields_eq_visitEach (visit : String → Reader → Visit σ Bool) {names : List String}
    (fields : Fields Reader names) : visitFields visit fields = visitEach visit fields.toList := by
  induction fields with
  | nil => rfl
  | cons name item rest ih => rw [visitFields, ih, Fields.toList, visitEach]

def numbered (items : List Reader) : List (Nat × Reader) := items.zipIdx.map Prod.swap

theorem visitFrom_eq_visitEach (visit : Nat → Reader → Visit σ Bool) (index : Nat) (items : List Reader) :
    visitFrom visit index items = visitEach visit ((items.zipIdx index).map Prod.swap) := by
  induction items generalizing index with
  | nil => rfl
  | cons item items ih => rw [visitFrom, ih, List.zipIdx_cons, List.map_cons, visitEach]; rfl

end AttributeCodec.Reader
