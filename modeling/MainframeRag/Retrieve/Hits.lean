import MainframeRag.Lib.PyText

/-!
# Search hits

`SearchHit` of `retrieve/query.py`. `K` is the type of scores.
-/

namespace MainframeRag.Retrieve

open PyText

structure SearchHit (K : Type) where
  chunkId : Text
  score : K
  cite : Text
  heading : Text
  text : Text
  docId : Text
  title : Text
  pageLabel : Text
  chunkType : Text
  messageIds : List Text
  product : Option Text := none
  version : Option Text := none
  rerankScore : Option K := none
  units : Option (List (Int × Int × Text)) := none
  pageStart : Option Int := none
  pageEnd : Option Int := none
  deriving DecidableEq

namespace SearchHit

variable {K : Type}

/-- `hit.model_copy(update={"score": score})` -/
def withScore (h : SearchHit K) (score : K) : SearchHit K := { h with score := score }

/-- `cand.model_copy(update={"rerank_score": ce})` -/
def withRerank (h : SearchHit K) (ce : K) : SearchHit K := { h with rerankScore := some ce }

@[simp] theorem withRerank_score (h : SearchHit K) (ce : K) : (h.withRerank ce).score = h.score := rfl

@[simp] theorem withRerank_rerankScore (h : SearchHit K) (ce : K) :
    (h.withRerank ce).rerankScore = some ce := rfl

@[simp] theorem withScore_chunkId (h : SearchHit K) (score : K) :
    (h.withScore score).chunkId = h.chunkId := rfl

@[simp] theorem withScore_docId (h : SearchHit K) (score : K) :
    (h.withScore score).docId = h.docId := rfl

@[simp] theorem withScore_score (h : SearchHit K) (score : K) : (h.withScore score).score = score :=
  rfl

end SearchHit

end MainframeRag.Retrieve
