import ExtensionHost.Client.Basic

namespace ExtensionHost

/-- How far the handling of a message has come: the client, the property keys of its services, and
the effects so far. -/
structure Progress where
  client : Client
  keys : PropertyKeys
  effects : List Effect

/-- The handling of a message. A fault ends it and undoes nothing. -/
abbrev Handling := ExceptT ClientFault (StateM Progress)

/-- The outcome of a message: accepted or refused, and what has become of the client, the property
keys and the surroundings. -/
structure Client.Receipt where
  client : Client
  keys : PropertyKeys
  effects : List Effect
  result : Except ClientFault Unit

namespace Handling

variable {α β : Type}

def runFrom (x : Handling α) (p : Progress) : Except ClientFault α × Progress := x.run.run p

def receipt (x : Handling Unit) (p : Progress) : Client.Receipt :=
  let (result, p) := x.runFrom p
  ⟨p.client, p.keys, p.effects, result⟩

def client : Handling Client := return (← get).client

def act (f : Client → Client × List Effect) : Handling Unit :=
  modify fun p => { p with client := (f p.client).1, effects := p.effects ++ (f p.client).2 }

/-- Works on the property keys. What has become of them stays, even if the work fails. -/
def onKeys (x : ExceptT SchemaError (StateM PropertyKeys) α) : Handling α :=
  ExceptT.mk fun p =>
    let (result, keys) := x.run.run p.keys
    (result.mapError .schema, { p with keys })

@[simp] theorem runFrom_pure (a : α) (p : Progress) : runFrom (pure a) p = (.ok a, p) := rfl

@[simp] theorem runFrom_throw (fault : ClientFault) (p : Progress) :
    runFrom (throw fault : Handling α) p = (.error fault, p) := rfl

@[simp] theorem runFrom_lift (x : Except ClientFault α) (p : Progress) :
    runFrom (liftM x) p = (x, p) := rfl

@[simp] theorem runFrom_client (p : Progress) : runFrom client p = (.ok p.client, p) := rfl

@[simp] theorem runFrom_act (f : Client → Client × List Effect) (p : Progress) :
    runFrom (act f) p = (.ok (), ⟨(f p.client).1, p.keys, p.effects ++ (f p.client).2⟩) := rfl

@[simp] theorem runFrom_onKeys (x : ExceptT SchemaError (StateM PropertyKeys) α) (p : Progress) :
    runFrom (onKeys x) p =
      ((x.run.run p.keys).1.mapError .schema, { p with keys := (x.run.run p.keys).2 }) := rfl

theorem runFrom_bind (x : Handling α) (f : α → Handling β) (p : Progress) :
    runFrom (x >>= f) p = match runFrom x p with
      | (.ok a, q) => runFrom (f a) q
      | (.error fault, q) => (.error fault, q) := by
  simp only [runFrom, ExceptT.run_bind, StateT.run_bind]
  rcases x.run.run p with ⟨_ | _, q⟩ <;> rfl

theorem runFrom_tryCatch (x : Handling α) (f : ClientFault → Handling α) (p : Progress) :
    runFrom (tryCatch x f) p = match runFrom x p with
      | (.ok a, q) => (.ok a, q)
      | (.error fault, q) => runFrom (f fault) q := by
  change runFrom (ExceptT.tryCatch x f) p = _
  unfold runFrom ExceptT.tryCatch ExceptT.run ExceptT.mk
  rw [StateT.run_bind]
  rcases StateT.run x p with ⟨_ | _, q⟩ <;> rfl

end Handling

end ExtensionHost
