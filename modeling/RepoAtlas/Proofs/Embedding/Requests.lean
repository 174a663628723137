import RepoAtlas.Proofs.Embedding.Attempts

/-!
# Requests of an embedder

A request that the breaker rejects makes no call. One that it admits calls the provider until an outcome is
neither transient nor a limit of the rate, or the retries are used up. It ends with the outcome of the last
call, and its calls, its characters, its failure, its pauses and what the breaker is told are determined by the
answers of the provider, which can be any.
-/

namespace RepoAtlas

namespace Embedder

variable {e : Embedder} {text : String} {b : CircuitBreaker} {n : Nat}

end Embedder

/-! ### Providers that follow a script -/

namespace Embedder

variable {e : Embedder} {text : String} {script : Nat → Reply × Bool} {n : Nat}

end Embedder

end RepoAtlas
