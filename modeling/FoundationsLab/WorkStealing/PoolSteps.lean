import FoundationsLab.WorkStealing.PoolInvariant

/-! # Every step keeps count of the tasks

Workers take tasks out of containers, run them and count them off; whoever calls
`submit` counts the new task before it puts it into a container. -/

namespace FoundationsLab.WorkStealing

/-- A worker without a task is not inside `submit` either. -/
theorem Worker.free_of_running {n : Nat} {worker : Worker n} (free : worker.running = []) :
    worker.finishing = [] ∧ worker.naming = [] ∧ worker.handing = [] := by
  cases worker with
  | run | finish => exact nomatch free
  | _ => exact ⟨rfl, rfl, rfl⟩

namespace Pool

variable {n m : Nat} {pool : Pool n m}

/-! ## Workers -/

/-- A worker that holds the same before and after. -/
theorem Inv.goto (inv : pool.Inv) (i : Fin n) {worker : Worker n}
    (running : worker.running = (pool.workers i).running)
    (finishing : worker.finishing = (pool.workers i).finishing)
    (naming : worker.naming = (pool.workers i).naming)
    (handing : worker.handing = (pool.workers i).handing)
    (past : ∀ t ∈ worker.past, t ∈ pool.counted) (uses : worker.Uses (pool.deques i).owner) :
    (pool.goto i worker).Inv := by
  refine inv.act (?_ : Acts pool _ i i worker (pool.deques i))
  refine ⟨rfl, (Function.update_eq_self i _).symm, rfl, inv.sound i, .inr ⟨rfl, uses⟩,
    fun t => ?_, fun t => ?_, fun t => ?_, fun t => ?_, rfl, fun _ member => member,
    fun _ member => .inl member, past, fun _ member => .inl member,
    fun _ member => .inr (naming ▸ member)⟩
  · rw [running, handing]
    rfl
  · rw [naming]
    rfl
  · rw [running]
    rfl
  · rw [finishing]
    rfl

/-- A worker without a task goes to another such place. -/
theorem Inv.wander (inv : pool.Inv) (i : Fin n) {worker : Worker n}
    (free : (pool.workers i).running = []) (free' : worker.running = [])
    (past : worker.past = []) (uses : worker.Uses (pool.deques i).owner) :
    (pool.goto i worker).Inv := by
  obtain ⟨finishing, naming, handing⟩ := Worker.free_of_running free
  obtain ⟨finishing', naming', handing'⟩ := Worker.free_of_running free'
  refine inv.goto i (free'.trans free.symm) (finishing'.trans finishing.symm)
    (naming'.trans naming.symm) (handing'.trans handing.symm) (fun t member => ?_) uses
  rw [past] at member
  cases member

/-- A step inside a call changes the deque and leaves the worker where it is. -/
theorem Inv.setDeque (inv : pool.Inv) (i v : Fin n) {deque : System Nat} (sound : deque.Sound)
    (pushed : deque.pushed = (pool.deques v).pushed)
    (returned : deque.returned = (pool.deques v).returned)
    (uses : (v = i ∧ (pool.workers i).Uses deque.owner) ∨ deque.owner = (pool.deques v).owner) :
    (pool.setDeque v deque).Inv := by
  refine inv.act (?_ : Acts pool _ i v (pool.workers i) deque)
  refine ⟨(Function.update_eq_self i _).symm, rfl, rfl, sound,
    uses.imp_right fun owner => ⟨owner, inv.owners i⟩, fun t => ?_, fun _ => rfl, fun _ => rfl,
    fun _ => rfl, rfl, fun _ member => member, fun _ member => .inl member, inv.pastWorkers i,
    fun _ member => .inl member, fun _ member => .inr member⟩
  rw [pushed, returned]
  rfl

/-- A worker takes a task out of a deque or out of the global queue. -/
theorem Inv.take (inv : pool.Inv) (i v : Fin n) (task : Nat) {deque : System Nat}
    {queue : List Nat} {steals : Nat} (free : (pool.workers i).running = [])
    (sound : deque.Sound) (pushed : deque.pushed = (pool.deques v).pushed)
    (uses : (v = i ∧ deque.owner = .idle) ∨
      (deque.owner = (pool.deques v).owner ∧ (pool.deques i).owner = .idle))
    (taken : ∀ t, deque.returned.count t + pool.queue.count t =
      (pool.deques v).returned.count t + [task].count t + queue.count t) :
    Inv { (pool.setDeque v deque).start i task with queue := queue, steals := steals } := by
  obtain ⟨finishing, naming, handing⟩ := Worker.free_of_running free
  refine inv.act (?_ : Acts pool _ i v (.run task .none) deque)
  refine ⟨rfl, rfl, rfl, sound, uses, fun t => ?_, fun t => ?_, fun t => ?_, fun t => ?_, rfl,
    fun _ member => member, fun _ member => .inl member, (fun _ member => nomatch member),
    fun _ member => .inl member, fun t member => ?_⟩
  · rw [free, handing, pushed]
    have local' := taken t
    simp only [Worker.running, Worker.handing, List.count_nil, Pool.start, Pool.goto,
      Pool.setDeque]
    omega
  · rw [naming]
    rfl
  · rw [free]
    simp only [Worker.running, List.count_nil, Pool.start, Pool.goto, Pool.setDeque,
      List.count_append]
    omega
  · rw [finishing]
    rfl
  · rw [naming] at member
    cases member

theorem popStep_inv (inv : pool.Inv) {i : Fin n} (pick : Fin n) (here : pool.workers i = .pop) :
    (pool.workerStep i pick).Inv := by
  have uses := inv.owners i
  rw [here] at uses
  have free : (pool.workers i).running = [] := by rw [here]; rfl
  obtain ⟨sound, pushed, ⟨value, inside, returned⟩ | ⟨x, value, isIdle, returned⟩⟩ :=
    System.popStep_spec (inv.sound i) uses
  · rw [workerStep, here]
    dsimp only
    generalize (pool.deques i).popStep = result at *
    obtain ⟨deque, answer⟩ := result
    obtain rfl : answer = none := value
    exact inv.setDeque i i sound pushed returned (.inl ⟨rfl, by rw [here]; exact inside⟩)
  · rw [workerStep, here]
    dsimp only
    generalize (pool.deques i).popStep = result at *
    obtain ⟨deque, answer⟩ := result
    obtain rfl : answer = some x := value
    cases x with
    | none =>
        rw [Option.toList_none, List.append_nil] at returned
        have isIdle' : deque.owner = .idle := isIdle
        have moved := inv.setDeque i i sound pushed returned
          (.inl ⟨rfl, by rw [here, isIdle']; trivial⟩)
        refine moved.wander i free rfl rfl ?_
        show (Function.update pool.deques i deque i).owner = .idle
        rw [Function.update_self]
        exact isIdle
    | some task =>
        refine inv.take i i task free sound pushed (.inl ⟨rfl, isIdle⟩) fun t => ?_
        show deque.returned.count t + pool.queue.count t = _ + pool.queue.count t
        rw [show deque.returned = _ from returned, List.count_append]
        rfl

theorem stealStep_inv (inv : pool.Inv) {i : Fin n} (pick : Fin n) {tries : Nat} {victim : Fin n}
    (here : pool.workers i = .stealing tries victim) : (pool.workerStep i pick).Inv := by
  have isIdle := inv.owners i
  rw [here] at isIdle
  have free : (pool.workers i).running = [] := by rw [here]; rfl
  obtain ⟨sound, pushed, owner, ⟨value, returned⟩ | ⟨x, value, returned⟩⟩ :=
    System.stealStep_spec (inv.sound victim) i
  · rw [workerStep, here]
    dsimp only
    generalize (pool.deques victim).stealStep i = result at *
    obtain ⟨deque, answer⟩ := result
    obtain rfl : answer = none := value
    exact inv.setDeque i victim sound pushed returned (.inr owner)
  · rw [workerStep, here]
    dsimp only
    generalize (pool.deques victim).stealStep i = result at *
    obtain ⟨deque, answer⟩ := result
    obtain rfl : answer = some x := value
    cases x with
    | none =>
        rw [Option.toList_none, List.append_nil] at returned
        have moved := inv.setDeque i victim sound pushed returned (.inr owner)
        have uses := moved.owners i
        have same : (pool.setDeque victim deque).workers i = .stealing tries victim := here
        rw [same] at uses
        exact moved.wander i free rfl rfl uses
    | some task =>
        refine inv.take i victim task free sound pushed (.inr ⟨owner, isIdle⟩) fun t => ?_
        show deque.returned.count t + pool.queue.count t = _ + pool.queue.count t
        rw [show deque.returned = _ from returned, List.count_append]
        rfl

theorem global_inv (inv : pool.Inv) {i : Fin n} (pick : Fin n)
    (here : pool.workers i = .global) : (pool.workerStep i pick).Inv := by
  have isIdle := inv.owners i
  rw [here] at isIdle
  have free : (pool.workers i).running = [] := by rw [here]; rfl
  rw [workerStep, here]
  dsimp only
  split
  · exact inv.wander i free rfl rfl isIdle
  · rename_i task queue isQueue
    have moved : Inv { (pool.setDeque i (pool.deques i)).start i task with
        queue := queue, steals := pool.steals } := by
      refine inv.take i i task free (inv.sound i) rfl (.inl ⟨rfl, isIdle⟩) fun t => ?_
      rw [isQueue, ← List.singleton_append, List.count_append]
      omega
    rw [Pool.setDeque, Function.update_eq_self] at moved
    exact moved

/-! ## Running tasks -/

theorem return_inv (inv : pool.Inv) {i : Fin n} {task : Nat}
    (here : pool.workers i = .run task .none) : (pool.runStep i task .none).Inv := by
  have isIdle := inv.owners i
  rw [here] at isIdle
  refine inv.act (?_ : Acts pool _ i i (.finish task) (pool.deques i))
  refine ⟨rfl, (Function.update_eq_self i _).symm, rfl, inv.sound i, .inr ⟨rfl, isIdle⟩,
    fun t => ?_, fun t => ?_, fun t => ?_, fun t => ?_, rfl, fun _ member => member,
    fun _ member => .inl member, (fun _ member => nomatch member), fun _ member => .inl member,
    fun t member => ?_⟩
  · rw [here]
    rfl
  · rw [here]
    rfl
  · rw [here]
    rfl
  · rw [here]
    simp only [runStep, Pool.goto, Worker.finishing, List.count_append, List.count_nil]
    omega
  · rw [here] at member
    cases member

theorem spawnCount_inv (inv : pool.Inv) {i : Fin n} {task child : Nat}
    (here : pool.workers i = .run task (.count child)) :
    (pool.runStep i task (.count child)).Inv := by
  have isIdle := inv.owners i
  rw [here] at isIdle
  refine inv.act (?_ : Acts pool _ i i (.run task (.push child)) (pool.deques i))
  refine ⟨rfl, (Function.update_eq_self i _).symm, rfl, inv.sound i, .inr ⟨rfl, ?_⟩,
    fun t => ?_, fun t => ?_, fun t => ?_, fun t => ?_, ?_, fun t member => ?_,
    fun _ member => .inl member, fun t member => ?_, fun _ member => .inl member,
    fun t member => .inl ?_⟩
  · rw [show (pool.deques i).owner = .idle from isIdle]
    trivial
  · rw [here]
    simp only [runStep, Pool.count, Pool.goto, Worker.running, Worker.handing, List.count_append,
      List.count_nil]
    omega
  · rw [here]
    show (pool.counted ++ [child]).count t + 0 + (if t < pool.created then 1 else 0) =
      pool.counted.count t + [child].count t + if t < pool.created then 1 else 0
    rw [List.count_append, Nat.add_zero]
  · rw [here]
    rfl
  · rw [here]
    rfl
  · show pool.pending + 1 + pool.counted.length + pool.countedOff.length =
      pool.pending + (pool.counted ++ [child]).length + pool.countedOff.length
    rw [List.length_append, List.length_singleton]
    omega
  · exact List.mem_append_left _ member
  · exact List.mem_append_right _ member
  · rw [here] at member
    exact List.mem_append_right _ member

theorem spawnPush_inv (inv : pool.Inv) {i : Fin n} {task child : Nat}
    (here : pool.workers i = .run task (.push child)) :
    (pool.runStep i task (.push child)).Inv := by
  have uses := inv.owners i
  rw [here] at uses
  have isCounted := inv.pastWorkers i child (by rw [here]; exact List.mem_singleton_self _)
  obtain ⟨sound, returned, ⟨value, inside, pushed⟩ | ⟨value, isIdle, pushed⟩⟩ :=
    System.pushStep_spec (inv.sound i) uses
  · rw [runStep]
    generalize (pool.deques i).pushStep child = result at *
    obtain ⟨deque, finished⟩ := result
    obtain rfl : finished = false := value
    exact inv.setDeque i i sound pushed returned (.inl ⟨rfl, by rw [here]; exact inside⟩)
  · rw [runStep]
    generalize (pool.deques i).pushStep child = result at *
    obtain ⟨deque, finished⟩ := result
    obtain rfl : finished = true := value
    refine inv.act (?_ : Acts pool _ i i (.run task (.notify child)) deque)
    refine ⟨rfl, rfl, rfl, sound, .inl ⟨rfl, isIdle⟩, fun t => ?_, fun t => ?_, fun t => ?_,
      fun t => ?_, rfl, fun _ member => member, fun _ member => .inl member, fun t member => ?_,
      fun _ member => .inl member, fun t member => ?_⟩
    · rw [here, show deque.pushed = _ from pushed, show deque.returned = _ from returned,
        List.count_append]
      simp only [Pool.setDeque, Pool.goto, Worker.running, Worker.handing, List.count_nil]
      omega
    · rw [here]
      rfl
    · rw [here]
      rfl
    · rw [here]
      rfl
    · rw [List.mem_singleton.mp member]
      exact isCounted
    · rw [here] at member
      cases member

theorem spawnNotify_inv (inv : pool.Inv) {i : Fin n} {task child : Nat}
    (here : pool.workers i = .run task (.notify child)) :
    (pool.runStep i task (.notify child)).Inv := by
  have isIdle := inv.owners i
  rw [here] at isIdle
  have isCounted := inv.pastWorkers i child (by rw [here]; exact List.mem_singleton_self _)
  refine inv.act (?_ : Acts pool _ i i (.run task .none) (pool.deques i))
  refine ⟨rfl, (Function.update_eq_self i _).symm, rfl, inv.sound i, .inr ⟨rfl, isIdle⟩,
    fun t => ?_, fun t => ?_, fun t => ?_, fun t => ?_, rfl, fun _ member => member,
    fun t member => ?_, (fun _ member => nomatch member), fun _ member => .inl member,
    fun t member => ?_⟩
  · rw [here]
    rfl
  · rw [here]
    rfl
  · rw [here]
    rfl
  · rw [here]
    rfl
  · refine (List.mem_append.mp member).imp_right fun new => ?_
    rw [List.mem_singleton.mp new]
    exact isCounted
  · rw [here] at member
    cases member

theorem finish_inv (inv : pool.Inv) {i : Fin n} {task : Nat}
    (here : pool.workers i = .finish task) : ((pool.countOff task).goto i .loop).Inv := by
  have isIdle := inv.owners i
  rw [here] at isIdle
  refine inv.act (?_ : Acts pool _ i i .loop (pool.deques i))
  refine ⟨rfl, (Function.update_eq_self i _).symm, rfl, inv.sound i, .inr ⟨rfl, isIdle⟩,
    fun t => ?_, fun t => ?_, fun t => ?_, fun t => ?_, ?_, fun _ member => member,
    fun _ member => .inl member, (fun _ member => nomatch member), fun _ member => .inl member,
    fun t member => ?_⟩
  · rw [here]
    simp only [Pool.countOff, Pool.goto, Worker.running, Worker.handing, List.count_append,
      List.count_nil]
    omega
  · rw [here]
    rfl
  · rw [here]
    simp only [Pool.countOff, Pool.goto, Worker.running, List.count_append, List.count_nil]
    omega
  · rw [here]
    simp only [Pool.countOff, Pool.goto, Worker.finishing, List.count_append, List.count_nil]
    omega
  · show pool.pending - 1 + pool.counted.length + ((pool.countedOff ++ [task]).length : Nat) =
      pool.pending + pool.counted.length + pool.countedOff.length
    rw [List.length_append, List.length_singleton]
    omega
  · rw [here] at member
    cases member

/-- The names of the tasks created so far and of the next one. -/
theorem count_new (created t : Nat) : [created].count t + (if t < created then 1 else 0) =
    if t < created + 1 then 1 else 0 := by
  rw [List.count_singleton]
  by_cases same : created = t
  · simp [same]
  · have iff : t < created + 1 ↔ t < created := by omega
    simp [same, iff]

theorem spawn_inv (inv : pool.Inv) (i : Fin n) : (pool.spawn i).Inv := by
  rw [spawn]
  split
  · rename_i task here
    have isIdle := inv.owners i
    rw [here] at isIdle
    refine inv.act (?_ : Acts pool _ i i (.run task (.count pool.created)) (pool.deques i))
    refine ⟨rfl, (Function.update_eq_self i _).symm, rfl, inv.sound i, .inr ⟨rfl, isIdle⟩,
      fun t => ?_, fun t => ?_, fun t => ?_, fun t => ?_, rfl, fun _ member => member,
      fun _ member => .inl member, (fun _ member => nomatch member), fun link member => ?_,
      fun t member => ?_⟩
    · rw [here]
      rfl
    · rw [here]
      have new := count_new pool.created t
      simp only [Pool.goto, Worker.naming, List.count_nil]
      omega
    · rw [here]
      rfl
    · rw [here]
      rfl
    · refine (List.mem_append.mp member).imp_right fun new => ?_
      rw [List.mem_singleton.mp new]
      exact List.mem_singleton_self _
    · rw [here] at member
      cases member
  · exact inv

theorem workerStep_inv (inv : pool.Inv) (i pick : Fin n) : (pool.workerStep i pick).Inv := by
  cases here : pool.workers i with
  | pop => exact popStep_inv inv pick here
  | global => exact global_inv inv pick here
  | stealing tries victim => exact stealStep_inv inv pick here
  | run task spawn =>
      rw [workerStep, here]
      cases spawn with
      | none => exact return_inv inv here
      | count child => exact spawnCount_inv inv here
      | push child => exact spawnPush_inv inv here
      | notify child => exact spawnNotify_inv inv here
  | finish task =>
      rw [workerStep, here]
      exact finish_inv inv here
  | exited =>
      rw [workerStep, here]
      exact inv
  | loop =>
      have isIdle := inv.owners i
      rw [here] at isIdle
      have free : (pool.workers i).running = [] := by rw [here]; rfl
      rw [workerStep, here]
      dsimp only
      split
      · exact inv.wander i free rfl rfl isIdle
      · refine inv.wander i free rfl rfl ?_
        rw [show (pool.deques i).owner = .idle from isIdle]
        trivial
  | steal tries =>
      have isIdle := inv.owners i
      rw [here] at isIdle
      have free : (pool.workers i).running = [] := by rw [here]; rfl
      rw [workerStep, here]
      dsimp only
      split
      · exact inv.wander i free rfl rfl isIdle
      · split
        · split
          · exact inv.wander i free rfl rfl isIdle
          · exact inv.wander i free rfl rfl isIdle
        · exact inv.wander i free rfl rfl isIdle
  | sleep =>
      have isIdle := inv.owners i
      rw [here] at isIdle
      rw [workerStep, here]
      exact inv.wander i (by rw [here]; rfl) rfl rfl isIdle

/-! ## Outside threads -/

/-- An outside thread moves to another place: what it holds, the queue and the record
change by the same amounts. -/
theorem Inv.outside (inv : pool.Inv) (k : Fin m) {thread : Outside} {queue counted submitted : List Nat}
    {created : Nat} {pending : Int}
    (balance : ∀ t, counted.count t + (pool.threads k).handing.count t + pool.queue.count t =
      pool.counted.count t + thread.handing.count t + queue.count t)
    (names : ∀ t, counted.count t + thread.naming.count t + (if t < pool.created then 1 else 0) =
      pool.counted.count t + (pool.threads k).naming.count t + if t < created then 1 else 0)
    (isPending : pending + pool.counted.length = pool.pending + counted.length)
    (grows : ∀ t ∈ pool.counted, t ∈ counted)
    (isSubmitted : ∀ t ∈ submitted, t ∈ pool.submitted ∨ t ∈ counted)
    (past : ∀ t ∈ thread.past, t ∈ counted) :
    Inv { pool.setThread k thread with
      queue := queue, counted := counted, submitted := submitted, created := created,
      pending := pending } := by
  have moved (held : Outside → List Nat) (t : Nat) := tally_update held pool.threads k thread t
  refine ⟨inv.sound, inv.owners, fun t => ?_, fun t => ?_, inv.started, inv.ran, ?_,
    fun t member => ?_, fun j t member => grows t (inv.pastWorkers j t member),
    fun j t member => ?_, fun link member => (inv.spawned link member).imp_left (grows _)⟩
  · have before := inv.balance t
    have local' := balance t
    have handing := moved Outside.handing t
    dsimp only [setThread]
    omega
  · have before := inv.names t
    have local' := names t
    have naming := moved Outside.naming t
    dsimp only [setThread]
    omega
  · have before := inv.pending
    dsimp only [setThread]
    omega
  · exact (isSubmitted t member).elim (fun old => grows t (inv.submitted t old)) id
  · by_cases same : j = k
    · have isPast : t ∈ (Function.update pool.threads k thread j).past := member
      rw [same, Function.update_self] at isPast
      exact past t isPast
    · have isPast : t ∈ (Function.update pool.threads k thread j).past := member
      rw [Function.update_of_ne same] at isPast
      exact grows t (inv.pastThreads j t isPast)

theorem submit_inv (inv : pool.Inv) (k : Fin m) : (pool.submit k).Inv := by
  rw [submit]
  split
  · exact inv
  · split
    · rename_i here
      refine inv.outside k (fun t => ?_) (fun t => ?_) rfl (fun _ member => member)
        (fun _ member => .inl member) nofun
      · rw [here]
        rfl
      · rw [here]
        show pool.counted.count t + [pool.created].count t + (if t < pool.created then 1 else 0) =
          pool.counted.count t + 0 + if t < pool.created + 1 then 1 else 0
        have new := count_new pool.created t
        omega
    · exact inv

theorem waitIdle_inv (inv : pool.Inv) (k : Fin m) : (pool.waitIdle k).Inv := by
  rw [waitIdle]
  split
  · exact inv
  · split
    · rename_i here
      refine inv.outside k (fun t => ?_) (fun t => ?_) rfl (fun _ member => member)
        (fun _ member => .inl member) nofun
      · rw [here]
        rfl
      · rw [here]
        rfl
    · exact inv

theorem outsideStep_inv (inv : pool.Inv) (k : Fin m) : (pool.outsideStep k).Inv := by
  rw [outsideStep]
  split
  · exact inv
  · rename_i task here
    refine inv.outside k (fun t => ?_) (fun t => ?_) ?_
      (fun _ member => List.mem_append_left _ member) (fun _ member => .inl member)
      (fun _ member => List.mem_append_right _ member)
    · rw [here]
      show (pool.counted ++ [task]).count t + 0 + pool.queue.count t =
        pool.counted.count t + [task].count t + pool.queue.count t
      rw [List.count_append, Nat.add_zero]
    · rw [here]
      show (pool.counted ++ [task]).count t + 0 + (if t < pool.created then 1 else 0) =
        pool.counted.count t + [task].count t + if t < pool.created then 1 else 0
      rw [List.count_append, Nat.add_zero]
    · show pool.pending + 1 + (pool.counted.length : Int) =
        pool.pending + ((pool.counted ++ [task]).length : Nat)
      rw [List.length_append, List.length_singleton]
      omega
  · rename_i task here
    have isCounted := inv.pastThreads k task (by rw [here]; exact List.mem_singleton_self _)
    refine inv.outside k (fun t => ?_) (fun t => ?_) rfl (fun _ member => member)
      (fun _ member => .inl member) (fun t member => ?_)
    · rw [here]
      show pool.counted.count t + [task].count t + pool.queue.count t =
        pool.counted.count t + 0 + (pool.queue ++ [task]).count t
      rw [List.count_append]
      omega
    · rw [here]
      rfl
    · rw [List.mem_singleton.mp member]
      exact isCounted
  · rename_i task here
    have isCounted := inv.pastThreads k task (by rw [here]; exact List.mem_singleton_self _)
    refine inv.outside k (fun t => ?_) (fun t => ?_) rfl (fun _ member => member)
      (fun t member => ?_) nofun
    · rw [here]
      rfl
    · rw [here]
      rfl
    · refine (List.mem_append.mp member).imp_right fun new => ?_
      rw [List.mem_singleton.mp new]
      exact isCounted
  · rename_i here
    split
    · refine inv.outside k (fun t => ?_) (fun t => ?_) rfl (fun _ member => member)
        (fun _ member => .inl member) nofun
      · rw [here]
        rfl
      · rw [here]
        rfl
    · exact inv

/-! ## Runs -/

theorem destroy_inv (inv : pool.Inv) : pool.destroy.Inv := by
  rw [destroy]
  split
  · exact { inv with }
  · exact inv

theorem step_inv (inv : pool.Inv) (event : Event n m) : (pool.step event).Inv := by
  cases event with
  | submit k => exact submit_inv inv k
  | waitIdle k => exact waitIdle_inv inv k
  | outside k => exact outsideStep_inv inv k
  | spawn i => exact spawn_inv inv i
  | worker i pick => exact workerStep_inv inv i pick
  | destroy => exact destroy_inv inv

theorem run_inv (events : List (Event n m)) (inv : pool.Inv) : (pool.run events).Inv := by
  induction events generalizing pool with
  | nil => exact inv
  | cons event events induction => exact induction (step_inv inv event)

end Pool

end FoundationsLab.WorkStealing
