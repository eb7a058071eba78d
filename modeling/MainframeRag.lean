import MainframeRag.Ingest.ProgressLog
import MainframeRag.Ingest.RefreshOrder
import MainframeRag.Ingest.Execute
import MainframeRag.Ingest.AliasSwap
import MainframeRag.Ingest.PublishState
import MainframeRag.Ingest.Staging
import MainframeRag.Ingest.RefreshExact
import MainframeRag.Ingest.Catalog
import MainframeRag.Ingest.Seal
import MainframeRag.Ingest.Placement
import MainframeRag.Ingest.GenerationText
import MainframeRag.Ingest.Chunking.PageSpans
import MainframeRag.Ingest.Chunking.UnitSpans
import MainframeRag.Ingest.Chunking.TextKept
import MainframeRag.Ingest.Chunking.BlockSizes
import MainframeRag.Ingest.Chunking.PageLabels
import MainframeRag.Ingest.Chunking.ChunkIds
import MainframeRag.Agent.Refusal
import MainframeRag.Agent.Classified
import MainframeRag.Agent.EntryKept
import MainframeRag.Agent.CopiedCites
import MainframeRag.Agent.CiteLocation
import MainframeRag.Agent.CiteFixed
import MainframeRag.Agent.Sse
import MainframeRag.Agent.Admission
import MainframeRag.Agent.SourceListing
import MainframeRag.Agent.AnswerCore
import MainframeRag.Agent.AnswerStream
import MainframeRag.Retrieve.Screen
import MainframeRag.Retrieve.SplitMerge
import MainframeRag.Retrieve.Diversify
import MainframeRag.Retrieve.Fusion
import MainframeRag.Retrieve.Rerank
import MainframeRag.Retrieve.RerankLegs
import MainframeRag.Retrieve.Search
import MainframeRag.Retrieve.SplitLegs
import MainframeRag.Retrieve.SplitSpelling
import MainframeRag.Lib.Blanking
import MainframeRag.Retrieve.CauseLeg
import MainframeRag.Mcp.JwksCache
import MainframeRag.Mcp.Dispatcher
import MainframeRag.Feedback.Client
import MainframeRag.Feedback.Import
import MainframeRag.Eval.Promotion
import MainframeRag.Eval.Acceptance
import MainframeRag.Webui.Markdown
import MainframeRag.Openwebui.CitationsFilter
import MainframeRag.Eval.Sample
import MainframeRag.Eval.Rates
import MainframeRag.Ingest.CatalogOrder
import MainframeRag.Ingest.ClusterVerdict
import MainframeRag.Ingest.Embeddings
import MainframeRag.Eval.Ndcg
import MainframeRag.Serve.Budget
import MainframeRag.Openwebui.DocsPipe
import MainframeRag.Ingest.PageText
import MainframeRag.Ingest.Chrome
import MainframeRag.Ingest.MarginBars
import MainframeRag.Ingest.PageTables
import MainframeRag.Ingest.Chunking.UnitCover
import MainframeRag.Agent.Serving
import MainframeRag.Agent.ServingGate
import MainframeRag.Lib.JsonTorn
import MainframeRag.Lib.LineLog
import MainframeRag.Ingest.Context
import MainframeRag.Ingest.ContextCache
import MainframeRag.Ingest.ContextRuns
import MainframeRag.Lib.Interleave
import MainframeRag.Ingest.PublishGate
import MainframeRag.Mcp.Gateway
import MainframeRag.Mcp.GatewayCallers
import MainframeRag.Lib.Selection
import MainframeRag.Retrieve.SearchShown
